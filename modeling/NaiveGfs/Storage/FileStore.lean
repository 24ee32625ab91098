import Mathlib.Logic.Function.Basic
import NaiveGfs.Programs.Trace

/-!
# Named files of blocks

What a file system is for: files by name, each a sequence of blocks. A file is created with
any blocks that pass for fresh, a block is read and changed in place, and a restart loses
nothing. So a block is what the accesses to it have made of the block it was, or of the fresh
block it began as.
-/

namespace FileStore

open Transitions

variable {ν β : Type*}

/-- The files by name, each with its blocks in order. -/
abbrev Files (ν β : Type*) := ν → Option (List β)

/-- A block of a file. -/
def block (files : Files ν β) (name : ν) (i : ℕ) : Option β := (files name).bind fun bs => bs[i]?

/-- The operations. An access says what it saw in the block and what it made of it. -/
inductive Op (ν β : Type*)
  | create (name : ν) (count : ℕ)
  | access (name : ν) (i : ℕ) (saw : β → Prop) (f : β → β)
  | restart

/-- The block that an operation touches, and how it changes it. -/
def Op.changes [DecidableEq ν] (name : ν) (i : ℕ) : Op ν β → Option (β → β)
  | .access name' j _ f => if name' = name ∧ j = i then some f else none
  | _ => none

/-- The changes of a block, oldest first. -/
def changes [DecidableEq ν] (name : ν) (i : ℕ) (ops : List (Op ν β)) : List (β → β) :=
  ops.filterMap (Op.changes name i)

/-- A block after some changes. -/
def after (fs : List (β → β)) (b : β) : β := fs.foldl (fun b f => f b) b

/-- Each file accessed is one of the known ones or was created before. -/
def Opened (known : ν → Prop) : List (Op ν β) → Prop
  | [] => True
  | .create name _ :: ops => Opened (fun x => known x ∨ x = name) ops
  | .access name _ _ _ :: ops => known name ∧ Opened known ops
  | .restart :: ops => Opened known ops

theorem Opened.at_access {known : ν → Prop} {pre post : List (Op ν β)} {name : ν} {i : ℕ}
    {saw : β → Prop} {f : β → β} (h : Opened known (pre ++ .access name i saw f :: post)) :
    known name ∨ ∃ n, Op.create name n ∈ pre := by
  induction pre generalizing known with
  | nil => exact .inl h.1
  | cons op pre ih =>
    have hmore {known' : ν → Prop} (h : Opened known' (pre ++ .access name i saw f :: post))
        (hknown : known' name → known name ∨ ∃ n, Op.create name n ∈ op :: pre) :
        known name ∨ ∃ n, Op.create name n ∈ op :: pre := by
      rcases ih h with hk | ⟨n, hn⟩
      · exact hknown hk
      · exact .inr ⟨n, List.mem_cons_of_mem _ hn⟩
    cases op with
    | create name' n =>
      refine hmore h fun hk => ?_
      rcases hk with hk | rfl
      · exact .inl hk
      · exact .inr ⟨n, List.mem_cons_self⟩
    | access name' j saw' f' => exact hmore h.2 .inl
    | restart => exact hmore h .inl

variable [DecidableEq ν]

/-- One operation. -/
inductive Step (fresh : β → Prop) (files : Files ν β) : Op ν β → Files ν β → Prop
  | create {name : ν} {bs : List β} (hnew : files name = none) (hfresh : ∀ b ∈ bs, fresh b) :
      Step fresh files (.create name bs.length) (Function.update files name (some bs))
  | access {name : ν} {bs : List β} {i : ℕ} {b : β} {saw : β → Prop} {f : β → β}
      (hfile : files name = some bs) (hblock : bs[i]? = some b) (hsaw : saw b) :
      Step fresh files (.access name i saw f) (Function.update files name (some (bs.modify i f)))
  | restart : Step fresh files .restart files

variable {fresh : β → Prop} {files files' : Files ν β} {op : Op ν β} {ops pre post : List (Op ν β)}
  {name : ν} {i : ℕ} {b b' : β}

@[simp] theorem after_nil : after ([] : List (β → β)) = id := rfl

@[simp] theorem after_singleton (f : β → β) : after [f] = f := rfl

theorem after_append (fs gs : List (β → β)) (b : β) : after (fs ++ gs) b = after gs (after fs b) :=
  List.foldl_append

omit [DecidableEq ν] in
theorem block_of_file {bs : List β} (h : files name = some bs) : block files name i = bs[i]? := by
  rw [block, h, Option.bind_some]

theorem block_update_of_ne {name' : ν} (h : name ≠ name') (x : Option (List β)) :
    block (Function.update files name' x) name i = block files name i := by
  rw [block, Function.update_of_ne h, block]

@[simp] theorem changes_create (name' : ν) (n : ℕ) :
    changes name i [(.create name' n : Op ν β)] = [] := rfl

@[simp] theorem changes_restart : changes name i [(.restart : Op ν β)] = [] := rfl

theorem changes_access_self (saw : β → Prop) (f : β → β) :
    changes name i [.access name i saw f] = [f] := by
  simp [changes, Op.changes]

theorem changes_access_of_ne {name' : ν} {j : ℕ} (h : ¬ (name' = name ∧ j = i)) (saw : β → Prop)
    (f : β → β) : changes name i [.access name' j saw f] = [] := by
  simp [changes, Op.changes, h]

theorem changes_append (xs ys : List (Op ν β)) :
    changes name i (xs ++ ys) = changes name i xs ++ changes name i ys :=
  List.filterMap_append

theorem changes_concat (ops : List (Op ν β)) (op : Op ν β) :
    changes name i (ops ++ [op]) = changes name i ops ++ changes name i [op] :=
  changes_append ops [op]

/-! ## One operation -/

/-- A file that is there stays there, and each of its blocks becomes what the operation makes
of it. -/
theorem Step.of_file (h : Step fresh files op files') (hfile : files name ≠ none) :
    files' name ≠ none ∧
      ∀ i, block files' name i = (block files name i).map (after (changes name i [op])) := by
  cases h with
  | @create name' bs hnew hfresh =>
    have hne : name ≠ name' := by
      rintro rfl
      exact hfile hnew
    rw [Function.update_of_ne hne]
    exact ⟨hfile, fun i => by simp [block_update_of_ne hne]⟩
  | @access name' bs j b saw f hfile' hblock hsaw =>
    by_cases hname : name' = name
    · subst hname
      refine ⟨by simp, fun i => ?_⟩
      rw [block_of_file (Function.update_self ..), block_of_file hfile', List.getElem?_modify]
      by_cases hi : j = i
      · subst hi
        simp [changes_access_self]
      · simp [changes_access_of_ne (fun h => hi h.2), hi]
    · rw [Function.update_of_ne (Ne.symm hname)]
      exact ⟨hfile, fun i => by
        simp [block_update_of_ne (Ne.symm hname), changes_access_of_ne (fun h => hname h.1)]⟩
  | restart => exact ⟨hfile, fun i => by simp⟩

/-- An operation does nothing to a file that is not there but creating it. -/
theorem Step.of_noFile (h : Step fresh files op files') (hnone : files name = none) (i : ℕ) :
    changes name i [op] = [] ∧ ∀ b, block files' name i = some b → fresh b := by
  cases h with
  | @create name' bs hnew hfresh =>
    refine ⟨rfl, fun b hb => ?_⟩
    by_cases hname : name = name'
    · subst hname
      rw [block_of_file (Function.update_self ..)] at hb
      exact hfresh b (List.mem_of_getElem? hb)
    · rw [block_update_of_ne hname, block, hnone] at hb
      simp at hb
  | @access name' bs j b₀ saw f hfile hblock hsaw =>
    have hne : name ≠ name' := by
      rintro rfl
      rw [hnone] at hfile
      simp at hfile
    refine ⟨changes_access_of_ne (fun h => hne h.1.symm) saw f, fun b hb => ?_⟩
    rw [block_update_of_ne hne, block, hnone] at hb
    simp at hb
  | restart =>
    refine ⟨rfl, fun b hb => ?_⟩
    rw [block, hnone] at hb
    simp at hb

/-- A file that has just been created is there. -/
theorem Step.file_of_create {n : ℕ} (h : Step fresh files (.create name n) files') :
    files' name ≠ none := by
  cases h with
  | create hnew hfresh => simp

/-! ## Runs -/

/-- A file that is there stays there, and each of its blocks is, after any run, what the
accesses to it have made of it. -/
theorem of_file (h : Trace (Step fresh) files ops files') (hfile : files name ≠ none) :
    files' name ≠ none ∧
      ∀ i, block files' name i = (block files name i).map (after (changes name i ops)) := by
  induction h with
  | nil => exact ⟨hfile, fun i => by simp [changes]⟩
  | @snoc ops files₁ files₂ op _ hstep ih =>
    obtain ⟨hfile₂, hblock⟩ := hstep.of_file ih.1
    refine ⟨hfile₂, fun i => ?_⟩
    rw [hblock, ih.2, changes_concat, Option.map_map]
    congr 1
    funext b
    exact (after_append _ _ _).symm

/-- A file that is known or was created is there. -/
theorem file_ne_none (h : Trace (Step fresh) files ops files')
    (hfile : files name ≠ none ∨ ∃ n, Op.create name n ∈ ops) : files' name ≠ none := by
  rcases hfile with hfile | ⟨n, hmem⟩
  · exact (of_file h hfile).1
  · obtain ⟨pre, post, rfl⟩ := List.append_of_mem hmem
    obtain ⟨m, m', -, hstep, hpost⟩ := h.at_event
    exact (of_file hpost hstep.file_of_create).1

/-- Nothing has been done to a file that is not there. -/
theorem of_noFile (h : Trace (Step fresh) files ops files') (hnone : files' name = none) (i : ℕ) :
    files name = none ∧ changes name i ops = [] := by
  induction h with
  | nil => exact ⟨hnone, rfl⟩
  | @snoc ops files₁ files₂ op _ hstep ih =>
    have hnone₁ : files₁ name = none := by
      by_contra hfile
      exact (hstep.of_file hfile).1 hnone
    obtain ⟨hfirst, hno⟩ := ih hnone₁
    exact ⟨hfirst, by rw [changes_concat, hno, (hstep.of_noFile hnone₁ i).1, List.append_nil]⟩

/-- Every block is what the accesses to it have made of the block that was there, or of a
fresh one. -/
theorem origin (h : Trace (Step fresh) files ops files') (hb : block files' name i = some b') :
    ∃ b, (block files name i = some b ∨ files name = none ∧ fresh b) ∧
      b' = after (changes name i ops) b := by
  induction h generalizing b' with
  | nil => exact ⟨b', .inl hb, rfl⟩
  | @snoc ops files₁ files₂ op hrun hstep ih =>
    by_cases hfile : files₁ name = none
    · obtain ⟨hno, hfresh⟩ := hstep.of_noFile hfile i
      obtain ⟨hnone, hbefore⟩ := of_noFile hrun hfile i
      exact ⟨b', .inr ⟨hnone, hfresh b' hb⟩, by rw [changes_concat, hno, hbefore]; rfl⟩
    · rw [(hstep.of_file hfile).2, Option.map_eq_some_iff] at hb
      obtain ⟨b₁, hb₁, rfl⟩ := hb
      obtain ⟨b, hb, rfl⟩ := ih hb₁
      exact ⟨b, hb, by rw [changes_concat, after_append]⟩

/-- What an access sees. -/
theorem saw_origin {saw : β → Prop} {f : β → β}
    (h : Trace (Step fresh) files (pre ++ .access name i saw f :: post) files') :
    ∃ b, (block files name i = some b ∨ files name = none ∧ fresh b) ∧
      saw (after (changes name i pre) b) := by
  obtain ⟨m, m', hpre, hstep, -⟩ := h.at_event
  cases hstep with
  | access hfile hblock hsaw =>
    obtain ⟨b, hb, rfl⟩ := origin hpre (by rw [block_of_file hfile]; exact hblock)
    exact ⟨b, hb, hsaw⟩

/-- A file that is accessed stays there. -/
theorem file_of_access {saw : β → Prop} {f : β → β}
    (h : Trace (Step fresh) files (pre ++ .access name i saw f :: post) files') :
    files' name ≠ none := by
  obtain ⟨m, m', -, hstep, hpost⟩ := h.at_event
  cases hstep with
  | access => exact (of_file hpost (by simp)).1

/-- What an access sees is what the accesses since an earlier one to the same block have made
of what that one left; and the earlier one saw what had become of the block before. -/
theorem saw_since {front back : List (Op ν β)} {saw saw' : β → Prop} {f f' : β → β}
    (h : Trace (Step fresh) files
      (front ++ .access name i saw f :: (back ++ .access name i saw' f' :: post)) files') :
    ∃ b, (block files name i = some b ∨ files name = none ∧ fresh b) ∧
      saw (after (changes name i front) b) ∧
        saw' (after (changes name i back) (f (after (changes name i front) b))) := by
  obtain ⟨m, m', hfront, hstep, hrest⟩ := h.at_event
  obtain ⟨n, n', hback, hlater, -⟩ := hrest.at_event
  cases hstep with
  | @access _ bs _ b _ _ hfile hblock hsaw =>
    obtain ⟨b₀, horigin, rfl⟩ := origin hfront (by rw [block_of_file hfile]; exact hblock)
    have hleft : block (Function.update m name (some (bs.modify i f))) name i =
        some (f (after (changes name i front) b₀)) := by
      rw [block_of_file (Function.update_self ..), List.getElem?_modify, hblock]
      simp
    cases hlater with
    | @access _ bs' _ b' _ _ hfile' hblock' hsaw' =>
      have hb' := (of_file hback (show Function.update m name _ name ≠ none by simp)).2 i
      rw [hleft, block_of_file hfile', hblock', Option.map_some, Option.some.injEq] at hb'
      exact ⟨b₀, horigin, hsaw, hb' ▸ hsaw'⟩

end FileStore
