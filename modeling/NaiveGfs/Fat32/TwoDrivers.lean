import NaiveGfs.Dfs.ConfigSector
import NaiveGfs.Dfs.InitConfig
import NaiveGfs.Fat32.ClusterIo

/-!
# The file system over two drivers

The functions of `fat32.c` and `fat32-dfs.c` see the card only through the two function
pointers. Two drivers that answer alike on related devices make them return the same and
leave the same memory, call by call and over whole sessions.
-/

namespace NaiveGfs

variable {κ κ' α : Type}

/-- On related devices the drivers answer alike and leave related devices. -/
structure Driver.Sim (drv : Driver κ) (drv' : Driver κ') (rel : κ → κ' → Prop) : Prop where
  read : ∀ {dev dev'}, rel dev dev' → ∀ lba buf,
    rel (drv.readsector dev lba buf).1 (drv'.readsector dev' lba buf).1 ∧
      (drv.readsector dev lba buf).2 = (drv'.readsector dev' lba buf).2
  write : ∀ {dev dev'}, rel dev dev' → ∀ buf lba,
    rel (drv.writesector dev buf lba) (drv'.writesector dev' buf lba)

/-- The same memory, and related devices. -/
structure Fs.Same (rel : κ → κ' → Prop) (s : Fs κ) (s' : Fs κ') : Prop where
  fat : s.fat = s'.fat
  dev : rel s.dev s'.dev

/-- The same value, and states that are the same. -/
def SameOut (rel : κ → κ' → Prop) (out : α × Fs κ) (out' : α × Fs κ') : Prop :=
  out.1 = out'.1 ∧ out.2.Same rel out'.2

/-- Two walks that end alike. -/
inductive WalkEnd.Same (rel : κ → κ' → Prop) : WalkEnd κ α → WalkEnd κ' α → Prop
  | hit (cur : UInt32) (j : ℕ) (i : Fin 16) (a : α) {dev : κ} {dev' : κ'} (buf : Sector)
      (hdev : rel dev dev') : Same rel (.hit cur j i a dev buf) (.hit cur j i a dev' buf)
  | exhausted (cur prev : UInt32) {dev : κ} {dev' : κ'} (buf : Sector) (hdev : rel dev dev') :
      Same rel (.exhausted cur prev dev buf) (.exhausted cur prev dev' buf)

section Functions

variable {drv : Driver κ} {drv' : Driver κ'} {rel : κ → κ' → Prop} (vol : Volume)
  {s : Fs κ} {s' : Fs κ'}

/-! ## The walks -/

theorem walkSectors_same (h : drv.Sim drv' rel) (visit : DirRecord → Option α) (cur : UInt32)
    (j left : ℕ) {dev : κ} {dev' : κ'} (hdev : rel dev dev') (buf : Sector) :
    rel (walkSectors drv vol visit cur j left dev buf).1
        (walkSectors drv' vol visit cur j left dev' buf).1 ∧
      (walkSectors drv vol visit cur j left dev buf).2 =
        (walkSectors drv' vol visit cur j left dev' buf).2 := by
  induction left generalizing j dev dev' buf with
  | zero => exact ⟨hdev, rfl⟩
  | succ left ih =>
    obtain ⟨hnext, hbuf⟩ := h.read hdev (sectorLba vol cur j) buf
    rw [walkSectors, walkSectors]
    generalize drv.readsector dev (sectorLba vol cur j) buf = out at hnext hbuf
    generalize drv'.readsector dev' (sectorLba vol cur j) buf = out' at hnext hbuf
    obtain ⟨d, b⟩ := out
    obtain ⟨d', b'⟩ := out'
    cases (show b = b' from hbuf)
    simp only
    cases walkRecords visit b with
    | none => exact ih (j + 1) hnext b
    | some hit => exact ⟨hnext, rfl⟩

theorem walkClusters_same (h : drv.Sim drv' rel) (fat : UInt32 → UInt32)
    (visit : DirRecord → Option α) (fuel : ℕ) (cur prev : UInt32) {dev : κ} {dev' : κ'}
    (hdev : rel dev dev') (buf : Sector) :
    Option.Rel (WalkEnd.Same rel) (walkClusters drv vol fat visit fuel cur prev dev buf)
      (walkClusters drv' vol fat visit fuel cur prev dev' buf) := by
  induction fuel generalizing cur prev dev dev' buf with
  | zero =>
    rw [walkClusters, walkClusters]
    split
    · exact .some (.exhausted cur prev buf hdev)
    · exact .none
  | succ fuel ih =>
    rw [walkClusters, walkClusters]
    split
    · exact .some (.exhausted cur prev buf hdev)
    · obtain ⟨hnext, hout⟩ := walkSectors_same vol h visit cur 0
        vol.id.sectorsPerCluster.toNat hdev buf
      generalize walkSectors drv vol visit cur 0 _ dev buf = out at hnext hout
      generalize walkSectors drv' vol visit cur 0 _ dev' buf = out' at hnext hout
      obtain ⟨d, b, hit⟩ := out
      obtain ⟨d', b', hit'⟩ := out'
      obtain ⟨rfl, rfl⟩ := Prod.mk.inj hout
      cases hit with
      | none => exact ih _ _ hnext _
      | some hit => exact .some (.hit cur _ _ _ _ hnext)

/-! ## The writes -/

theorem Fs.Same.write (h : drv.Sim drv' rel) (hs : s.Same rel s') (buf : Sector) (lba : UInt32) :
    Fs.Same rel { s with dev := drv.writesector s.dev buf lba }
      { s' with dev := drv'.writesector s'.dev buf lba } :=
  ⟨hs.fat, h.write hs.dev buf lba⟩

theorem writeFatSector_same (h : drv.Sim drv' rel) (hs : s.Same rel s') (index : UInt32) :
    (writeFatSector drv vol index s).Same rel (writeFatSector drv' vol index s') := by
  have hwrite := hs.write h (fatSector s.fat index) (fatSectorLba vol index)
  rw [writeFatSector, writeFatSector, ← hs.fat]
  exact ⟨rfl, hwrite.dev⟩

theorem setEntry_same (h : drv.Sim drv' rel) (hs : s.Same rel s') (index value : UInt32) :
    (setEntry drv vol index value s).Same rel (setEntry drv' vol index value s') :=
  have hfat : Fs.Same rel { s with fat := Function.update s.fat index value }
      { s' with fat := Function.update s'.fat index value } :=
    ⟨congrArg (Function.update · index value) hs.fat, hs.dev⟩
  writeFatSector_same vol h hfat index

theorem fat32PointFat_same (h : drv.Sim drv' rel) (hs : s.Same rel s') (prev next : UInt32) :
    (fat32PointFat drv vol prev next s).Same rel (fat32PointFat drv' vol prev next s') :=
  have hfat : Fs.Same rel { s with fat := Function.update s.fat prev next }
      { s' with fat := Function.update s'.fat prev next } :=
    ⟨congrArg (Function.update · prev next) hs.fat, hs.dev⟩
  writeFatSector_same vol h hfat (clusterNo prev)

theorem allocFreeLocalCluster_same (h : drv.Sim drv' rel) (hs : s.Same rel s') :
    SameOut rel (allocFreeLocalCluster drv vol s) (allocFreeLocalCluster drv' vol s') := by
  have hset := setEntry_same vol h hs (clusterNo (findFreeLocalCluster vol s.fat))
    (clusterNo 0xffffffff)
  rw [allocFreeLocalCluster, allocFreeLocalCluster, ← hs.fat]
  exact ⟨rfl, hset.write h _ _⟩

theorem extendFile_same (h : drv.Sim drv' rel) (k : ℕ) (prev : UInt32) (hs : s.Same rel s') :
    (extendFile drv vol k prev s).Same rel (extendFile drv' vol k prev s') := by
  induction k generalizing prev s s' with
  | zero => exact hs
  | succ k ih =>
    obtain ⟨hout, hnext⟩ := allocFreeLocalCluster_same vol h hs
    simp only [extendFile, ← hout]
    exact ih _ (fat32PointFat_same _ h hnext _ _)

theorem allocLocalFileAt_same (h : drv.Sim drv' rel) (dr : DirRecord) (numClusters : ℤ)
    (name : Fin 11 → UInt8) (hs : s.Same rel s') :
    (allocLocalFileAt drv vol dr numClusters name s).1 =
        (allocLocalFileAt drv' vol dr numClusters name s').1 ∧
      SameOut rel (allocLocalFileAt drv vol dr numClusters name s).2
        (allocLocalFileAt drv' vol dr numClusters name s').2 := by
  obtain ⟨hout, hnext⟩ := allocFreeLocalCluster_same vol h hs
  simp only [allocLocalFileAt, ← hout]
  exact ⟨trivial, rfl, extendFile_same _ h _ _ hnext⟩

theorem writeRecords_same (h : drv.Sim drv' rel) (hs : s.Same rel s') (records : Sector)
    (lba : UInt32) : (writeRecords drv records lba s).Same rel (writeRecords drv' records lba s') :=
  hs.write h records lba

theorem storeRecord_same (h : drv.Sim drv' rel) (hs : s.Same rel s') (cur : UInt32) (j : ℕ)
    (i : Fin 16) (records : Sector) :
    (storeRecord drv vol cur j i records s).Same rel
      (storeRecord drv' vol cur j i records s') := by
  rw [storeRecord, storeRecord]
  split
  · split
    · exact writeRecords_same h hs _ _
    · exact writeRecords_same h (writeRecords_same h hs _ _) _ _
  · exact writeRecords_same h hs _ _

theorem insertAt_same (h : drv.Sim drv' rel) (hs : s.Same rel s') (cur : UInt32) (j : ℕ)
    (i : Fin 16) (records : Sector) (numClusters : ℤ) (name : Fin 11 → UInt8) :
    SameOut rel (insertAt drv vol cur j i records numClusters name s)
      (insertAt drv' vol cur j i records numClusters name s') := by
  obtain ⟨hfirst, hdr, hnext⟩ := allocLocalFileAt_same vol h (records.record i)
    numClusters name hs
  simp only [insertAt, ← hfirst, ← hdr]
  exact ⟨rfl, storeRecord_same _ h hnext _ _ _ _⟩

theorem extendRoot_same (h : drv.Sim drv' rel) (hs : s.Same rel s') (prev : UInt32)
    (records : Sector) (numClusters : ℤ) (name : Fin 11 → UInt8) :
    SameOut rel (extendRoot drv vol prev records numClusters name s)
      (extendRoot drv' vol prev records numClusters name s') := by
  obtain ⟨hout, halloc⟩ := allocFreeLocalCluster_same vol h hs
  obtain ⟨hfirst, hdr, hnext⟩ := allocLocalFileAt_same vol h (records.record 0)
    numClusters name (fat32PointFat_same vol h halloc (clusterNo prev)
      (clusterNo (allocFreeLocalCluster drv vol s).1))
  simp only [extendRoot, ← hout, ← hfirst, ← hdr]
  exact ⟨rfl, writeRecords_same h hnext _ _⟩

/-! ## The calls -/

theorem fat32GetClusterNo_same (h : drv.Sim drv' rel) (hs : s.Same rel s')
    (name : Fin 11 → UInt8) (stack : Sector) (fuel : ℕ) :
    Option.Rel (SameOut rel) (fat32GetClusterNo drv vol name stack fuel s)
      (fat32GetClusterNo drv' vol name stack fuel s') := by
  have hwalk := walkClusters_same vol h s.fat (lookupVisit name) fuel fat32RootClusterNo
    fat32RootClusterNo hs.dev stack
  rw [fat32GetClusterNo, fat32GetClusterNo, ← hs.fat]
  generalize walkClusters drv vol s.fat _ _ _ _ _ _ = out at hwalk
  generalize walkClusters drv' vol s.fat _ _ _ _ _ _ = out' at hwalk
  cases hwalk with
  | none => exact .none
  | some hend =>
    cases hend with
    | hit cur j i a buf hdev => exact .some ⟨rfl, rfl, hdev⟩
    | exhausted cur prev buf hdev => exact .some ⟨rfl, rfl, hdev⟩

theorem fat32AllocLocalFile_same (h : drv.Sim drv' rel) (hs : s.Same rel s') (n : UInt32)
    (name : Fin 11 → UInt8) (stack : Sector) (fuel : ℕ) :
    Option.Rel (SameOut rel) (fat32AllocLocalFile drv vol n name stack fuel s)
      (fat32AllocLocalFile drv' vol n name stack fuel s') := by
  have hwalk := walkClusters_same vol h s.fat insertVisit fuel
    vol.data.rootDirFirstCluster vol.data.rootDirFirstCluster hs.dev stack
  rw [fat32AllocLocalFile, fat32AllocLocalFile, ← hs.fat]
  generalize walkClusters drv vol s.fat _ _ _ _ _ _ = out at hwalk
  generalize walkClusters drv' vol s.fat _ _ _ _ _ _ = out' at hwalk
  cases hwalk with
  | none => exact .none
  | some hend =>
    cases hend with
    | hit cur j i a buf hdev => exact .some (insertAt_same _ h ⟨rfl, hdev⟩ _ _ _ _ _ _)
    | exhausted cur prev buf hdev =>
      simp only
      split
      · exact .some (extendRoot_same _ h ⟨rfl, hdev⟩ _ _ _ _)
      · exact .some ⟨rfl, rfl, hdev⟩

theorem dfsInitConfig_same (h : drv.Sim drv' rel) (hs : s.Same rel s') (stack stack' : Sector)
    (fuel : ℕ) :
    Option.Rel (SameOut rel) (dfsInitConfig drv vol stack stack' fuel s)
      (dfsInitConfig drv' vol stack stack' fuel s') := by
  have hlook := fat32GetClusterNo_same vol h hs fat32DfsCfgFilename stack fuel
  rw [dfsInitConfig, dfsInitConfig]
  generalize fat32GetClusterNo drv vol _ _ _ s = out at hlook
  generalize fat32GetClusterNo drv' vol _ _ _ s' = out' at hlook
  cases hlook with
  | none => exact .none
  | @some out out' hout =>
    obtain ⟨c, t⟩ := out
    obtain ⟨c', t'⟩ := out'
    obtain ⟨rfl, ht⟩ := hout
    simp only
    split
    · exact fat32AllocLocalFile_same _ h ht _ _ _ _
    · exact .some ⟨rfl, ht⟩

theorem writeCluster_same (h : drv.Sim drv' rel) (c : UInt32) (src : ℕ → UInt8) {dev : κ}
    {dev' : κ'} (hdev : rel dev dev') :
    rel (writeCluster vol drv c src dev) (writeCluster vol drv' c src dev') := by
  rw [writeCluster, writeCluster]
  induction List.range vol.id.sectorsPerCluster.toNat generalizing dev dev' with
  | nil => exact hdev
  | cons i is ih => exact ih (h.write hdev _ _)

theorem idForDfs_same (h : drv.Sim drv' rel) (cfg : UInt32) (dfsName : Fin 30 → UInt8) (id : ℤ)
    (stack : Sector) {dev : κ} {dev' : κ'} (hdev : rel dev dev') :
    Option.Rel (fun out out' => out.1 = out'.1 ∧ rel out.2 out'.2)
      (idForDfs drv vol cfg dfsName id stack dev)
      (idForDfs drv' vol cfg dfsName id stack dev') := by
  obtain ⟨hnext, hbuf⟩ := h.read hdev (clusterNoToLba vol cfg) stack
  rw [idForDfs, idForDfs]
  generalize drv.readsector dev _ stack = out at hnext hbuf
  generalize drv'.readsector dev' _ stack = out' at hnext hbuf
  obtain ⟨d, b⟩ := out
  obtain ⟨d', b'⟩ := out'
  cases (show b = b' from hbuf)
  simp only
  cases scan b dfsName with
  | free i =>
    simp only
    split
    · exact .none
    · exact .some ⟨rfl, h.write hnext _ _⟩
  | matched i => exact .some ⟨rfl, hnext⟩
  | full => exact .some ⟨rfl, h.write hnext _ _⟩

/-! ## Mounting -/

/-- The same panic, or related results. -/
inductive SameExcept {β : Type} (r : α → β → Prop) : Except String α → Except String β → Prop
  | error (e : String) : SameExcept r (.error e) (.error e)
  | ok {a : α} {b : β} (h : r a b) : SameExcept r (.ok a) (.ok b)

theorem SameExcept.map {β γ δ : Type} {r : α → β → Prop} {q : γ → δ → Prop} {f : α → γ}
    {g : β → δ} (hfg : ∀ a b, r a b → q (f a) (g b)) {x : Except String α} {y : Except String β}
    (h : SameExcept r x y) : SameExcept q (x.map f) (y.map g) := by
  cases h with
  | error e => exact .error e
  | ok h => exact .ok (hfg _ _ h)

/-- The same static memory, and related devices. -/
structure InitState.Same (rel : κ → κ' → Prop) (st : InitState κ) (st' : InitState κ') : Prop where
  bootSector : st.bootSector = st'.bootSector
  allVolIds : st.allVolIds = st'.allVolIds
  volData : st.volData = st'.volData
  chosenPartition : st.chosenPartition = st'.chosenPartition
  numValidPartitions : st.numValidPartitions = st'.numValidPartitions
  dev : rel st.dev st'.dev

variable {st : InitState κ} {st' : InitState κ'}

theorem initPartition_same (h : drv.Sim drv' rel) (i : Fin 4) (hst : st.Same rel st') :
    SameExcept (InitState.Same rel) (initPartition drv i st) (initPartition drv' i st') := by
  obtain ⟨hnext, hbuf⟩ := h.read hst.dev (st.bootSector.partition i).lbaBegin (st.allVolIds i)
  rw [initPartition, initPartition, ← hst.bootSector, ← hst.allVolIds, ← hst.volData,
    ← hst.numValidPartitions]
  generalize drv.readsector st.dev _ _ = out at hnext hbuf
  generalize drv'.readsector st'.dev _ _ = out' at hnext hbuf
  obtain ⟨d, b⟩ := out
  obtain ⟨d', b'⟩ := out'
  cases (show b = b' from hbuf)
  simp only
  split
  · exact .ok hst
  · split
    · exact .error _
    · split
      · exact .error _
      · exact .ok ⟨rfl, rfl, rfl, rfl, rfl, hnext⟩

theorem initPartitions_same (h : drv.Sim drv' rel) (hst : st.Same rel st') :
    SameExcept (InitState.Same rel) (initPartitions drv st) (initPartitions drv' st') := by
  rw [initPartitions, initPartitions]
  induction List.finRange 4 generalizing st st' with
  | nil => exact .ok hst
  | cons i is ih =>
    have hround := initPartition_same h i hst
    rw [List.foldlM_cons, List.foldlM_cons]
    generalize initPartition drv i st = out at hround
    generalize initPartition drv' i st' = out' at hround
    cases hround with
    | error e => exact .error e
    | ok hst => exact ih hst

theorem loadFat_same (h : drv.Sim drv' rel) (fatBeginLba : UInt32) (i left : ℕ)
    (hs : s.Same rel s') :
    (loadFat drv fatBeginLba i left s).Same rel (loadFat drv' fatBeginLba i left s') := by
  induction left generalizing i s s' with
  | zero => exact hs
  | succ left ih =>
    obtain ⟨hnext, hbuf⟩ := h.read hs.dev (fatBeginLba + UInt32.ofNat i)
      (memSector s.fat (512 * UInt32.ofNat i))
    rw [loadFat, loadFat, ← hs.fat]
    refine ih (i + 1) ⟨?_, hnext⟩
    simp only
    rw [hbuf]

theorem fat32Init_same (h : drv.Sim drv' rel) (fat : UInt32 → UInt32) {dev : κ} {dev' : κ'}
    (hdev : rel dev dev') :
    SameExcept (SameOut rel) (fat32Init drv fat dev) (fat32Init drv' fat dev') := by
  obtain ⟨hnext, hbuf⟩ := h.read hdev 0 blankSector
  have hboot : InitState.Same rel
      { InitState.zero dev with
        bootSector := (drv.readsector dev 0 blankSector).2
        dev := (drv.readsector dev 0 blankSector).1 }
      { InitState.zero dev' with
        bootSector := (drv'.readsector dev' 0 blankSector).2
        dev := (drv'.readsector dev' 0 blankSector).1 } := ⟨hbuf, rfl, rfl, rfl, rfl, hnext⟩
  refine (initPartitions_same h hboot).map fun st st' hst => ⟨?_, ?_⟩
  · simp only [hst.allVolIds, hst.volData, hst.chosenPartition]
  · simp only [hst.allVolIds, hst.volData, hst.chosenPartition]
    exact loadFat_same h _ _ _ ⟨rfl, hst.dev⟩

end Functions

/-! ## Sessions -/

/-- `read_cluster` through the driver, to `FAT_end + dst`. -/
def readClusterWith (drv : Driver κ) (vol : Volume) (c : UInt32) (dst : ℕ) (behind : ℕ → UInt8)
    (dev : κ) : (ℕ → UInt8) × κ :=
  (List.range vol.id.sectorsPerCluster.toNat).foldl
    (fun out i =>
      let (dev, buf) := drv.readsector out.2 (sectorLba vol c i)
        (bufSector out.1 (dst + 512 * i))
      (storeBytes out.1 (dst + 512 * i) buf, dev)) (behind, dev)

/-- A call after `fat32_init`, with the stack memory it finds. -/
inductive FsCall
  | getClusterNo (name : Fin 11 → UInt8) (stack : Sector)
  | allocLocalFile (n : UInt32) (name : Fin 11 → UInt8) (stack : Sector)
  | initConfig (stack stack' : Sector)
  | idFor (cfgClusterNo : UInt32) (dfsName : Fin 30 → UInt8) (id : ℤ) (stack : Sector)
  | readCluster (c : UInt32) (dst : ℕ) (behind : ℕ → UInt8)
  | writeCluster (c : UInt32) (src : ℕ → UInt8)

/-- What a call returns. -/
inductive FsAnswer
  | cluster (c : UInt32)
  | id (i : ℤ)
  | bytes (behind : ℕ → UInt8)
  | none

section Sessions

variable (drv : Driver κ) (vol : Volume) (fuel : ℕ)

/-- A call that was made, unless it does not return. -/
def performCall (s : Fs κ) : FsCall → Option (FsAnswer × Fs κ)
  | .getClusterNo name stack =>
    (fat32GetClusterNo drv vol name stack fuel s).map fun out => (.cluster out.1, out.2)
  | .allocLocalFile n name stack =>
    (fat32AllocLocalFile drv vol n name stack fuel s).map fun out => (.cluster out.1, out.2)
  | .initConfig stack stack' =>
    (dfsInitConfig drv vol stack stack' fuel s).map fun out => (.cluster out.1, out.2)
  | .idFor cfgClusterNo dfsName id stack =>
    (idForDfs drv vol cfgClusterNo dfsName id stack s.dev).map
      fun out => (.id out.1, { s with dev := out.2 })
  | .readCluster c dst behind =>
    let out := readClusterWith drv vol c dst behind s.dev
    some (.bytes out.1, { s with dev := out.2 })
  | .writeCluster c src => some (.none, { s with dev := writeCluster vol drv c src s.dev })

/-- Calls one after the other, with what they return. -/
def performAll : List FsCall → Fs κ → Option (List FsAnswer × Fs κ)
  | [], s => some ([], s)
  | call :: calls, s =>
    (performCall drv vol fuel s call).bind fun out =>
      (performAll calls out.2).map fun rest => (out.1 :: rest.1, rest.2)

/-- `fat32_init` and the calls after it. -/
def session (calls : List FsCall) (fat : UInt32 → UInt32) (dev : κ) :
    Except String (Option (List FsAnswer × Fs κ)) :=
  (fat32Init drv fat dev).map fun out => performAll drv out.1 fuel calls out.2

end Sessions

section Functions

variable {drv : Driver κ} {drv' : Driver κ'} {rel : κ → κ' → Prop} (vol : Volume) (fuel : ℕ)

theorem readClusterWith_same (h : drv.Sim drv' rel) (c : UInt32) (dst : ℕ) (behind : ℕ → UInt8)
    {dev : κ} {dev' : κ'} (hdev : rel dev dev') :
    (readClusterWith drv vol c dst behind dev).1 = (readClusterWith drv' vol c dst behind dev').1 ∧
      rel (readClusterWith drv vol c dst behind dev).2
        (readClusterWith drv' vol c dst behind dev').2 := by
  rw [readClusterWith, readClusterWith]
  induction List.range vol.id.sectorsPerCluster.toNat generalizing behind dev dev' with
  | nil => exact ⟨rfl, hdev⟩
  | cons i is ih =>
    obtain ⟨hnext, hbuf⟩ := h.read hdev (sectorLba vol c i) (bufSector behind (dst + 512 * i))
    rw [List.foldl_cons, List.foldl_cons]
    simp only
    rw [← hbuf]
    exact ih _ hnext

theorem map_same {β : Type} {out : Option (α × Fs κ)} {out' : Option (α × Fs κ')} (f : α → β)
    (h : Option.Rel (SameOut rel) out out') :
    Option.Rel (SameOut rel) (out.map fun o => (f o.1, o.2)) (out'.map fun o => (f o.1, o.2)) := by
  cases h with
  | none => exact .none
  | some h => exact .some ⟨congrArg f h.1, h.2⟩

theorem performCall_same (h : drv.Sim drv' rel) (call : FsCall) {s : Fs κ} {s' : Fs κ'}
    (hs : s.Same rel s') :
    Option.Rel (SameOut rel) (performCall drv vol fuel s call)
      (performCall drv' vol fuel s' call) := by
  cases call with
  | getClusterNo name stack => exact map_same _ (fat32GetClusterNo_same _ h hs name stack fuel)
  | allocLocalFile n name stack =>
    exact map_same _ (fat32AllocLocalFile_same _ h hs n name stack fuel)
  | initConfig stack stack' => exact map_same _ (dfsInitConfig_same _ h hs stack stack' fuel)
  | idFor cfgClusterNo dfsName id stack =>
    have hout := idForDfs_same vol h cfgClusterNo dfsName id stack hs.dev
    rw [performCall, performCall]
    generalize idForDfs drv vol _ _ _ _ _ = out at hout
    generalize idForDfs drv' vol _ _ _ _ _ = out' at hout
    cases hout with
    | none => exact .none
    | some hout => exact .some ⟨congrArg FsAnswer.id hout.1, hs.fat, hout.2⟩
  | readCluster c dst behind =>
    obtain ⟨hbytes, hdev⟩ := readClusterWith_same vol h c dst behind hs.dev
    exact .some ⟨congrArg FsAnswer.bytes hbytes, hs.fat, hdev⟩
  | writeCluster c src => exact .some ⟨rfl, hs.fat, writeCluster_same _ h c src hs.dev⟩

theorem performAll_same (h : drv.Sim drv' rel) (calls : List FsCall) {s : Fs κ} {s' : Fs κ'}
    (hs : s.Same rel s') :
    Option.Rel (SameOut rel) (performAll drv vol fuel calls s)
      (performAll drv' vol fuel calls s') := by
  induction calls generalizing s s' with
  | nil => exact .some ⟨rfl, hs⟩
  | cons call calls ih =>
    have hcall := performCall_same vol fuel h call hs
    rw [performAll, performAll]
    generalize performCall drv vol fuel s call = out at hcall
    generalize performCall drv' vol fuel s' call = out' at hcall
    cases hcall with
    | none => exact .none
    | @some out out' hout =>
      have hrest := ih hout.2
      rw [Option.bind_some, Option.bind_some]
      generalize performAll drv vol fuel calls out.2 = rest at hrest
      generalize performAll drv' vol fuel calls out'.2 = rest' at hrest
      cases hrest with
      | none => exact .none
      | some hrest => exact .some ⟨congrArg₂ List.cons hout.1 hrest.1, hrest.2⟩

/-- Over drivers that answer alike a session goes the same way. -/
theorem session_same (h : drv.Sim drv' rel) (calls : List FsCall) (fat : UInt32 → UInt32)
    {dev : κ} {dev' : κ'} (hdev : rel dev dev') :
    SameExcept (Option.Rel (SameOut rel)) (session drv fuel calls fat dev)
      (session drv' fuel calls fat dev') := by
  refine (fat32Init_same h fat hdev).map fun out out' hout => ?_
  rw [hout.1]
  exact performAll_same _ _ h calls hout.2

end Functions

end NaiveGfs
