import NaiveGfs.Dfs.Permanent

/-!
# Which file systems share an entry

`id_for_dfs` finds an entry with the project's `strncmp`, which stops at the end of either
string: it takes a name for the name of an entry when one is the beginning of the other. The
calls on a config sector are followed here together with the names with which its entries
were created, which the sector itself does not tell.
-/

namespace NaiveGfs

variable {vol : Volume} {cfgClusterNo : UInt32}

/-- A name of 1 to 29 bytes with its terminator, in the buffer that is handed to
`id_for_dfs`. -/
def IsName (dfsName : Fin 30 → UInt8) : Prop :=
  1 ≤ (stringOf dfsName).length ∧ (stringOf dfsName).length ≤ 29

instance (dfsName : Fin 30 → UInt8) : Decidable (IsName dfsName) :=
  inferInstanceAs (Decidable (_ ∧ _))

/-- No name of a list is a proper beginning of another one. -/
def PrefixFree (names : List (List UInt8)) : Prop :=
  ∀ a ∈ names, ∀ b ∈ names, a <+: b → a = b

instance (names : List (List UInt8)) : Decidable (PrefixFree names) :=
  inferInstanceAs (Decidable (∀ a ∈ names, ∀ b ∈ names, a <+: b → a = b))

theorem PrefixFree.eq {names : List (List UInt8)} (h : PrefixFree names) {a b : List UInt8}
    (ha : a ∈ names) (hb : b ∈ names) (hab : a <+: b ∨ b <+: a) : a = b := by
  cases hab with
  | inl hab => exact h a ha b hb hab
  | inr hba => exact (h b hb a ha hba).symm

/-! ## Calls and the creators of entries -/

/-- The name with which each entry was created, if it was. -/
abbrev Creators := Fin 16 → Option (Fin 30 → UInt8)

/-- A call creates the entry that is free before it and not behind it. -/
def recordCreator (before after : Sector) (dfsName : Fin 30 → UInt8) (created : Creators) :
    Creators := fun i =>
  if (before.entry i).isFree && !(after.entry i).isFree then some dfsName else created i

/-- One call of `id_for_dfs` in a run: its name, the config sector and the creators before it,
the sector behind it and the value returned. -/
structure NameStep where
  dfsName : Fin 30 → UInt8
  before : Sector
  created : Creators
  after : Sector
  result : ℤ

/-- A run of calls of `id_for_dfs` that return, with any names and ids. -/
inductive NameRun (vol : Volume) (cfgClusterNo : UInt32) : Card → Creators → List NameStep → Prop
  | nil (card : Card) (created : Creators) : NameRun vol cfgClusterNo card created []
  | call {card card' : Card} {created : Creators} {dfsName : Fin 30 → UInt8} {id r : ℤ}
      {stack : Sector} {steps : List NameStep}
      (hcall : idForDfs sdDriver vol cfgClusterNo dfsName id stack card = some (r, card'))
      (hrest : NameRun vol cfgClusterNo card'
        (recordCreator (cardConfig vol cfgClusterNo card) (cardConfig vol cfgClusterNo card')
          dfsName created) steps) :
      NameRun vol cfgClusterNo card created
        (⟨dfsName, cardConfig vol cfgClusterNo card, created,
          cardConfig vol cfgClusterNo card', r⟩ :: steps)

/-- A call answers from an entry that was created with exactly its name, and gives a name with
which no entry was created an entry of its own. -/
structure OwnEntry (st : NameStep) : Prop where
  answer : ∀ i, scan st.before st.dfsName = .matched i →
    st.result = (st.before.entry i).id.toNat ∧
      ∃ b, st.created i = some b ∧ stringOf b = stringOf st.dfsName
  fresh : (∀ i b, st.created i = some b → stringOf b ≠ stringOf st.dfsName) →
    ∃ i, (st.before.entry i).isFree = true ∧ (st.after.entry i).isFree = false ∧
      stringOf (st.after.entry i).dfsId = stringOf st.dfsName

/-! ## What holds between the calls -/

/-- The entries have been created with different names, from the first one on without gaps,
and every name in `names` has its entry; no name is a proper beginning of another one. -/
structure Registered (names : List (List UInt8)) (s : Sector) (created : Creators) : Prop where
  free : ∀ i, created i = none ↔ (s.entry i).isFree = true
  name : ∀ i b, created i = some b → stringOf (s.entry i).dfsId = stringOf b
  called : ∀ i b, created i = some b → stringOf b ∈ names
  stored : ∀ a ∈ names, ∃ i b, created i = some b ∧ stringOf b = a
  distinct : ∀ i j b b', created i = some b → created j = some b' → stringOf b = stringOf b' →
    i = j
  front : ∀ i j, j ≤ i → created j = none → created i = none
  prefixFree : PrefixFree names

theorem registered_blank : Registered [] blankSector fun _ => none where
  free i := by
    refine ⟨fun _ => ?_, fun _ => rfl⟩
    rfl
  name _ _ h := by simp at h
  called _ _ h := by simp at h
  stored _ h := by simp at h
  distinct _ _ _ _ h := by simp at h
  front _ _ _ _ := rfl
  prefixFree _ h := by simp at h

section Step

variable {names : List (List UInt8)} {s : Sector} {created : Creators}
  {dfsName : Fin 30 → UInt8}

/-- A created entry matches a name when one of the two names is the beginning of the other. -/
theorem Registered.matches_iff (h : Registered names s created) {i : Fin 16}
    {b : Fin 30 → UInt8} (hi : created i = some b) (dfsName : Fin 30 → UInt8) :
    (s.entry i).matchesName dfsName = true ↔
      stringOf b <+: stringOf dfsName ∨ stringOf dfsName <+: stringOf b := by
  have hused : (s.entry i).isFree = false := by
    cases hf : (s.entry i).isFree with
    | false => rfl
    | true =>
      rw [(h.free i).mpr hf] at hi
      simp at hi
  rw [ConfigEntry.matchesName, hused, Bool.not_false, Bool.true_and, beq_iff_eq,
    strncmp_eq_zero_iff, h.name i b hi]

/-- The name of a matching entry. -/
theorem Registered.created_of_matches (h : Registered names s created) {i : Fin 16}
    (hi : (s.entry i).matchesName dfsName = true) : ∃ b, created i = some b := by
  cases hc : created i with
  | some b => exact ⟨b, rfl⟩
  | none =>
    rw [ConfigEntry.matchesName, (h.free i).mp hc] at hi
    simp at hi

/-- If the call answers from an entry of its own name, its name is no proper beginning of an
earlier one, nor the other way round. -/
theorem Registered.prefixFree_of_own (h : Registered names s created) {id : ℤ}
    (hown : OwnEntry ⟨dfsName, s, created, scanSector s dfsName id, scanResult s dfsName⟩) :
    PrefixFree (names ++ [stringOf dfsName]) := by
  have hnew : ∀ a ∈ names, a <+: stringOf dfsName ∨ stringOf dfsName <+: a →
      a = stringOf dfsName := by
    intro a ha hab
    obtain ⟨k, b, hk, rfl⟩ := h.stored a ha
    have hmatch := (h.matches_iff hk dfsName).mpr hab
    rcases scan_cases s dfsName with ⟨-, hall⟩ | ⟨i, hpre, ⟨hfree, -⟩ | ⟨-, hscan⟩⟩
    · exact absurd hmatch (by simp [(hall k).2])
    · -- the entry with the earlier name is not behind a free one
      cases lt_or_ge k i with
      | inl hlt => exact absurd hmatch (by simp [(hpre k hlt).2])
      | inr hge =>
        rw [h.front k i hge ((h.free i).mpr hfree)] at hk
        simp at hk
    · -- the entry that answers was created with the name itself, which was called before
      obtain ⟨-, b', hb', he⟩ := hown.answer i hscan
      have hmem : stringOf dfsName ∈ names := he ▸ h.called i b' hb'
      exact h.prefixFree.eq ha hmem hab
  intro a ha b hb hab
  rcases List.mem_append.mp ha with ha | ha
  · rcases List.mem_append.mp hb with hb | hb
    · exact h.prefixFree a ha b hb hab
    · rw [List.mem_singleton] at hb
      subst hb
      exact hnew a ha (Or.inl hab)
  · rw [List.mem_singleton] at ha
    subst ha
    rcases List.mem_append.mp hb with hb | hb
    · exact (hnew b hb (Or.inr hab)).symm
    · rw [List.mem_singleton] at hb
      exact hb.symm

/-- The names of the entries are different ones of `names`, so not all sixteen are in use and
pass when a new name is still to come. -/
theorem Registered.not_full (h : Registered names s created)
    (hcount : ∀ l : List (List UInt8), l.Nodup → l ⊆ names ++ [stringOf dfsName] → l.length ≤ 16)
    (hall : ∀ j, Passes s dfsName j) : False := by
  have hcreated : ∀ j, ∃ b, created j = some b := by
    intro j
    cases hc : created j with
    | some b => exact ⟨b, rfl⟩
    | none =>
      have hfree := (h.free j).mp hc
      rw [(hall j).1] at hfree
      simp at hfree
  choose b hb using hcreated
  -- with the new name there would be seventeen
  have hnew : stringOf dfsName ∉ (List.finRange 16).map fun j => stringOf (b j) := by
    intro hin
    obtain ⟨j, -, he⟩ := List.mem_map.mp hin
    have hmatch := (h.matches_iff (hb j) dfsName).mpr (Or.inl (by rw [he]))
    exact absurd hmatch (by simp [(hall j).2])
  have hnodup : ((List.finRange 16).map fun j => stringOf (b j)).Nodup := by
    refine (List.nodup_map_iff_inj_on (List.nodup_finRange 16)).mpr ?_
    intro i _ j _ he
    exact h.distinct i j _ _ (hb i) (hb j) he
  have hsub : (stringOf dfsName :: (List.finRange 16).map fun j => stringOf (b j)) ⊆
      names ++ [stringOf dfsName] := by
    intro a ha
    rcases List.mem_cons.mp ha with rfl | ha
    · simp
    · obtain ⟨j, -, rfl⟩ := List.mem_map.mp ha
      exact List.mem_append.mpr (Or.inl (h.called j _ (hb j)))
  have hle := hcount _ (List.nodup_cons.mpr ⟨hnew, hnodup⟩) hsub
  simp at hle

/-- A call that finds its name leaves everything as it is. -/
theorem Registered.matched (h : Registered names s created)
    (hpf : PrefixFree (names ++ [stringOf dfsName])) {i : Fin 16}
    (hscan : scan s dfsName = .matched i) (id : ℤ) :
    OwnEntry ⟨dfsName, s, created, scanSector s dfsName id, scanResult s dfsName⟩ ∧
      Registered (names ++ [stringOf dfsName]) (scanSector s dfsName id)
        (recordCreator s (scanSector s dfsName id) dfsName created) := by
  have hmatch := (passes_of_scan_matched hscan).2
  obtain ⟨b, hb⟩ := h.created_of_matches hmatch
  have hmem : stringOf b ∈ names := h.called i b hb
  have he : stringOf b = stringOf dfsName :=
    hpf.eq (List.mem_append.mpr (Or.inl hmem)) (by simp) ((h.matches_iff hb dfsName).mp hmatch)
  have hsame : scanSector s dfsName id = s := scanSector_of_matched hscan id
  have hrec : recordCreator s s dfsName created = created := by
    funext j
    exact if_neg (by simp)
  rw [hsame, hrec]
  refine ⟨⟨fun j hj => ?_, fun hfresh => absurd he (hfresh i b hb)⟩, ?_⟩
  · obtain rfl := ScanEnd.matched.inj (hscan.symm.trans hj)
    exact ⟨by simp only [scanResult, hscan], b, hb, he⟩
  · exact { h with
      called := fun j c hj => List.mem_append.mpr (Or.inl (h.called j c hj))
      stored := by
        intro a ha
        rcases List.mem_append.mp ha with ha | ha
        · exact h.stored a ha
        · rw [List.mem_singleton.mp ha]
          exact ⟨i, b, hb, he⟩
      prefixFree := hpf }

/-- No entry was created with a name whose scan comes to a free entry. -/
theorem Registered.not_stored (h : Registered names s created) {i : Fin 16}
    (hscan : scan s dfsName = .free i) {k : Fin 16} {b : Fin 30 → UInt8}
    (hk : created k = some b) : stringOf b ≠ stringOf dfsName := by
  intro he
  obtain ⟨hpre, hfree⟩ := passes_of_scan_free hscan
  have hmatch := (h.matches_iff hk dfsName).mpr (Or.inl (by rw [he]))
  cases lt_or_ge k i with
  | inl hlt => exact absurd hmatch (by simp [(hpre k hlt).2])
  | inr hge =>
    rw [h.front k i hge ((h.free i).mpr hfree)] at hk
    simp at hk

/-- A call that takes a free entry into use is the creator of that entry. -/
theorem recordCreator_of_setEntry {s' : Sector} {i : Fin 16} (hfree : (s.entry i).isFree = true)
    (hused : (s'.entry i).isFree = false) (hother : ∀ j, j ≠ i → s'.entry j = s.entry j) :
    recordCreator s s' dfsName created = Function.update created i (some dfsName) := by
  funext j
  by_cases hj : j = i
  · subst hj
    rw [Function.update_self]
    simp [recordCreator, hfree, hused]
  · rw [Function.update_of_ne hj]
    simp [recordCreator, hother j hj]

/-- The creator of an entry is the new one at its entry, or one from before. -/
theorem created_update_cases {i j : Fin 16} {b : Fin 30 → UInt8}
    (h : Function.update created i (some dfsName) j = some b) :
    (j = i ∧ b = dfsName) ∨ (j ≠ i ∧ created j = some b) := by
  by_cases hj : j = i
  · subst hj
    rw [Function.update_self, Option.some.injEq] at h
    exact Or.inl ⟨rfl, h.symm⟩
  · rw [Function.update_of_ne hj] at h
    exact Or.inr ⟨hj, h⟩

/-- A new name in the first free entry is registered with the others. -/
theorem Registered.extend (h : Registered names s created)
    (hpf : PrefixFree (names ++ [stringOf dfsName])) {s' : Sector} {i : Fin 16}
    (hbefore : ∀ k < i, (s.entry k).isFree = false) (hfree : (s.entry i).isFree = true)
    (hused : (s'.entry i).isFree = false) (hother : ∀ j, j ≠ i → s'.entry j = s.entry j)
    (htext : stringOf (s'.entry i).dfsId = stringOf dfsName)
    (hnew : ∀ k b, created k = some b → stringOf b ≠ stringOf dfsName) :
    Registered (names ++ [stringOf dfsName]) s' (Function.update created i (some dfsName)) where
  free := by
    intro j
    by_cases hj : j = i
    · subst hj
      rw [Function.update_self, hused]
      simp
    · rw [Function.update_of_ne hj, hother j hj]
      exact h.free j
  name := by
    intro j b hb
    rcases created_update_cases hb with ⟨rfl, rfl⟩ | ⟨hj, hold⟩
    · exact htext
    · rw [hother j hj]
      exact h.name j b hold
  called := by
    intro j b hb
    rcases created_update_cases hb with ⟨-, rfl⟩ | ⟨-, hold⟩
    · simp
    · exact List.mem_append.mpr (Or.inl (h.called j b hold))
  stored := by
    intro a ha
    rcases List.mem_append.mp ha with ha | ha
    · obtain ⟨k, b, hk, he⟩ := h.stored a ha
      have hki : k ≠ i := by
        rintro rfl
        rw [(h.free k).mpr hfree] at hk
        simp at hk
      exact ⟨k, b, by rw [Function.update_of_ne hki, hk], he⟩
    · exact ⟨i, dfsName, Function.update_self i _ created, (List.mem_singleton.mp ha).symm⟩
  distinct := by
    intro j k b b' hb hb' he
    rcases created_update_cases hb with ⟨rfl, rfl⟩ | ⟨-, hold⟩
    · rcases created_update_cases hb' with ⟨rfl, -⟩ | ⟨-, hold'⟩
      · rfl
      · exact absurd he.symm (hnew k b' hold')
    · rcases created_update_cases hb' with ⟨rfl, rfl⟩ | ⟨-, hold'⟩
      · exact absurd he (hnew j b hold)
      · exact h.distinct j k b b' hold hold' he
  front := by
    intro j k hkj hk
    have hki : k ≠ i := by
      rintro rfl
      rw [Function.update_self] at hk
      simp at hk
    rw [Function.update_of_ne hki] at hk
    have hji : j ≠ i := by
      rintro rfl
      -- the entries in front of the new one are in use
      have hfreek := (h.free k).mp hk
      rw [hbefore k (lt_of_le_of_ne hkj hki)] at hfreek
      simp at hfreek
    rw [Function.update_of_ne hji]
    exact h.front j k hkj hk
  prefixFree := hpf

/-- A call that comes to a free entry gives it to the name. -/
theorem Registered.assigned (h : Registered names s created) (hname : IsName dfsName)
    (hpf : PrefixFree (names ++ [stringOf dfsName])) {i : Fin 16}
    (hscan : scan s dfsName = .free i) (id : ℤ) :
    OwnEntry ⟨dfsName, s, created, scanSector s dfsName id, scanResult s dfsName⟩ ∧
      Registered (names ++ [stringOf dfsName]) (scanSector s dfsName id)
        (recordCreator s (scanSector s dfsName id) dfsName created) := by
  obtain ⟨hlow, hhigh⟩ := hname
  have hfirst : ¬ IsEnd (dfsName 0) :=
    not_isEnd_of_stringOf (List.ne_nil_of_length_pos hlow)
  obtain ⟨hpre, hfree⟩ := passes_of_scan_free hscan
  have hsector : scanSector s dfsName id = s.setEntry i ((s.entry i).assign dfsName id) := by
    simp only [scanSector, hscan]
  have hself : (scanSector s dfsName id).entry i = (s.entry i).assign dfsName id := by
    rw [hsector, Sector.entry_setEntry_self]
  have hother : ∀ j, j ≠ i → (scanSector s dfsName id).entry j = s.entry j := by
    intro j hj
    rw [hsector, Sector.entry_setEntry_of_ne s hj]
  have hused : ((scanSector s dfsName id).entry i).isFree = false := by
    rw [hself]
    exact ConfigEntry.isFree_assign _ hfirst id
  have htext : stringOf ((scanSector s dfsName id).entry i).dfsId = stringOf dfsName := by
    rw [hself]
    exact stringOf_strncpy _ (by omega)
  constructor
  · exact ⟨fun j hj => absurd (hscan.symm.trans hj) (by simp), fun _ => ⟨i, hfree, hused, htext⟩⟩
  · rw [recordCreator_of_setEntry hfree hused hother]
    exact h.extend hpf (fun k hk => (hpre k hk).1) hfree hused hother htext
      fun k b hk => h.not_stored hscan hk

/-- The step lemma: between calls that are registered, a call has an entry of its own exactly
when the names called so far stay free of proper beginnings, and then they are registered
behind it. -/
theorem Registered.step (h : Registered names s created) (hname : IsName dfsName)
    (hcount : ∀ l : List (List UInt8), l.Nodup → l ⊆ names ++ [stringOf dfsName] → l.length ≤ 16)
    (hpf : PrefixFree (names ++ [stringOf dfsName])) (id : ℤ) :
    OwnEntry ⟨dfsName, s, created, scanSector s dfsName id, scanResult s dfsName⟩ ∧
      Registered (names ++ [stringOf dfsName]) (scanSector s dfsName id)
        (recordCreator s (scanSector s dfsName id) dfsName created) := by
  rcases scan_cases s dfsName with ⟨-, hall⟩ | ⟨i, -, ⟨-, hscan⟩ | ⟨-, hscan⟩⟩
  · exact (h.not_full hcount hall).elim
  · exact h.assigned hname hpf hscan id
  · exact h.matched hpf hscan id

end Step

/-- The run lemma. -/
theorem NameRun.ownEntry_iff {card : Card} {created : Creators} {steps : List NameStep}
    (hrun : NameRun vol cfgClusterNo card created steps) {names : List (List UInt8)}
    (h : Registered names (cardConfig vol cfgClusterNo card) created)
    (hnames : ∀ st ∈ steps, IsName st.dfsName)
    (hcount : ∀ l : List (List UInt8), l.Nodup →
      l ⊆ names ++ steps.map (fun st => stringOf st.dfsName) → l.length ≤ 16) :
    (∀ st ∈ steps, OwnEntry st) ↔
      PrefixFree (names ++ steps.map fun st => stringOf st.dfsName) := by
  induction hrun generalizing names with
  | nil card created => simpa using h.prefixFree
  | @call card card' created dfsName id r stack steps hcall hrest ih =>
    obtain ⟨rfl, hsector⟩ := cardConfig_of_call hcall
    rw [hsector] at ih ⊢
    rw [List.map_cons, List.append_cons] at hcount ⊢
    have hname : IsName dfsName := hnames _ List.mem_cons_self
    have hrestNames : ∀ st ∈ steps, IsName st.dfsName :=
      fun st hst => hnames st (List.mem_cons_of_mem _ hst)
    have hfirst : ∀ l : List (List UInt8), l.Nodup → l ⊆ names ++ [stringOf dfsName] →
        l.length ≤ 16 :=
      fun l hl hsub => hcount l hl fun a ha => List.mem_append.mpr (Or.inl (hsub ha))
    constructor
    · intro hall
      have hown := hall _ List.mem_cons_self
      have hnext := (h.step hname hfirst (h.prefixFree_of_own hown) id).2
      exact (ih hnext hrestNames hcount).mp fun st hst => hall st (List.mem_cons_of_mem _ hst)
    · intro hpf
      have hhead : PrefixFree (names ++ [stringOf dfsName]) :=
        fun a ha b hb => hpf a (List.mem_append.mpr (Or.inl ha)) b (List.mem_append.mpr (Or.inl hb))
      obtain ⟨hown, hnext⟩ := h.step hname hfirst hhead id
      intro st hst
      rcases List.mem_cons.mp hst with rfl | hst
      · exact hown
      · exact (ih hnext hrestNames hcount).mpr hpf st hst

/-- From a blank config sector, with at most sixteen names, every call answers from an entry of
exactly its own name, and gives a new name an entry of its own, if and only if none of the
names is a proper beginning of another one. -/
theorem idForDfs_ownEntry_iff {card : Card} {steps : List NameStep}
    (hrun : NameRun vol cfgClusterNo card (fun _ => none) steps)
    (hblank : cardConfig vol cfgClusterNo card = blankSector)
    (hnames : ∀ st ∈ steps, IsName st.dfsName)
    (hcount : (steps.map fun st => stringOf st.dfsName).dedup.length ≤ 16) :
    (∀ st ∈ steps, OwnEntry st) ↔ PrefixFree (steps.map fun st => stringOf st.dfsName) := by
  have hstart : Registered [] (cardConfig vol cfgClusterNo card) fun _ => none := by
    rw [hblank]
    exact registered_blank
  refine hrun.ownEntry_iff hstart hnames fun l hl hsub => ?_
  have hdedup : l ⊆ (steps.map fun st => stringOf st.dfsName).dedup :=
    fun a ha => List.mem_dedup.mpr (hsub ha)
  exact (List.subperm_of_subset hl hdedup).length_le.trans hcount

/-- A name buffer with a short name in it. -/
def nameBuffer (name : List UInt8) : Fin 30 → UInt8 := fun j => name.getD j.val 0

/-- A blank card, with sector 3 after the names of the given list have been given the id 5. -/
def namedCard (names : List (List UInt8)) : Card :=
  names.foldl (fun card name =>
    card.write 3 (scanSector (card.current 3) (nameBuffer name) 5)) ⟨fun _ => blankSector, []⟩

/-- The names `a` and `b`. -/
theorem idForDfs_ownEntry_two :
    ∃ steps, NameRun smallVolume 3 (namedCard []) (fun _ => none) steps ∧ steps.length = 2 ∧
      ∀ st ∈ steps, OwnEntry st := by
  have hfirst : idForDfs sdDriver smallVolume 3 (nameBuffer [0x61]) 5 blankSector
      (namedCard []) = some (-1, namedCard [[0x61]]) := rfl
  have hsecond : idForDfs sdDriver smallVolume 3 (nameBuffer [0x62]) 5 blankSector
      (namedCard [[0x61]]) = some (-1, namedCard [[0x61], [0x62]]) := rfl
  have hrun : NameRun smallVolume 3 (namedCard []) (fun _ => none) _ :=
    .call hfirst (.call hsecond (.nil _ _))
  have ha : IsName (nameBuffer [0x61]) := by decide
  have hb : IsName (nameBuffer [0x62]) := by decide
  exact ⟨_, hrun, rfl, (idForDfs_ownEntry_iff hrun rfl
    (List.forall_mem_cons.mpr ⟨ha, List.forall_mem_singleton.mpr hb⟩) (by decide)).mpr
    (by decide)⟩

/-- The name `a` after the name `ab`: the second call answers from the entry of `ab`. -/
theorem idForDfs_sharesEntry :
    ¬ ∀ steps, NameRun smallVolume 3 (namedCard []) (fun _ => none) steps →
      (∀ st ∈ steps, IsName st.dfsName) →
      (steps.map fun st => stringOf st.dfsName).dedup.length ≤ 16 → ∀ st ∈ steps, OwnEntry st := by
  intro h
  have hfirst : idForDfs sdDriver smallVolume 3 (nameBuffer [0x61, 0x62]) 5 blankSector
      (namedCard []) = some (-1, namedCard [[0x61, 0x62]]) := rfl
  have hsecond : idForDfs sdDriver smallVolume 3 (nameBuffer [0x61]) 5 blankSector
      (namedCard [[0x61, 0x62]]) = some (5, namedCard [[0x61, 0x62]]) := rfl
  have hrun : NameRun smallVolume 3 (namedCard []) (fun _ => none) _ :=
    .call hfirst (.call hsecond (.nil _ _))
  have hab : IsName (nameBuffer [0x61, 0x62]) := by decide
  have ha : IsName (nameBuffer [0x61]) := by decide
  have hown := h _ hrun (List.forall_mem_cons.mpr ⟨hab, List.forall_mem_singleton.mpr ha⟩)
    (by decide) _ (List.mem_cons_of_mem _ List.mem_cons_self)
  obtain ⟨-, b, hb, he⟩ := hown.answer 0 rfl
  have hcreator : b = nameBuffer [0x61, 0x62] := (Option.some.inj hb).symm
  rw [hcreator] at he
  exact absurd he (by decide)

end NaiveGfs
