import Tce.TPEF.SafePointerRuns

/-!
# Resolving safe pointers

`resolve` asks sections for the chunks that offset keys refer to and then looks
for a reference that is still missing. The check of a map ends at its first list
with pointers, so it finds a missing reference only when that list has none.
-/

namespace Tce.TPEF.ReferenceManager
variable {O P : Type} [DecidableEq O] [DecidableEq P]

section Conditions
variable (asSection : O → Option (Nat → Option O)) (s : ReferenceManager O P)

/-- The lists that `resolve` may add pointers to: those of offset keys and of chunks. -/
def Touched (list : Nat) : Prop :=
  (∃ key, key.kind = .sectionOffset ∧ (key, list) ∈ s.keyMap) ∨
    ∃ section_ chunk offset obj, asSection section_ = some chunk ∧ chunk offset = some obj ∧
      s.referenceMap (some obj) = some list

/-- A list with pointers and no object that no offset key leads to. -/
def Pending (list : Nat) : Prop :=
  (∃ l, s.lists list = some l ∧ l.reference = none ∧ l.list ≠ []) ∧
    ∀ key, (key, list) ∈ s.keyMap → key.kind ≠ .sectionOffset

/-- A list that has pointers or may get some. -/
def Occupied (list : Nat) : Prop :=
  s.Touched asSection list ∨ ∃ l, s.lists list = some l ∧ l.list ≠ []

/-- An offset key without an object shares its list with no other key. -/
def OffsetsAlone (s : ReferenceManager O P) : Prop :=
  ∀ key list l, key.kind = .sectionOffset → (key, list) ∈ s.keyMap → s.lists list = some l →
    l.reference = none → s.Alone key list

/-- When `resolve` finds every missing reference: no pointer has left its list because
its object was deleted, an offset without an object has a list of its own, and the
first list of a map that has pointers is itself without an object when any list
of the map with pointers is. -/
structure Resolvable : Prop where
  inList : ∀ p, s.aliveSafePointers p → s.byKey p → s.object p = none →
    ∃ key list l, (key, list) ∈ s.keyMap ∧ s.lists list = some l ∧ p ∈ l.list
  alone : s.OffsetsAlone
  first : ∀ kind, kind ≠ .sectionOffset → ∀ before e after, s.keysOf kind = before ++ e :: after →
    (∀ e' ∈ before, ¬s.Occupied asSection e'.2) → s.Occupied asSection e.2 →
    (∃ e' ∈ s.keysOf kind, s.Pending e'.2) → s.Pending e.2

/-- `resolve` returns only when every alive pointer created with a key has an object,
and it fails in no other way than by `UnresolvedReference`. -/
def ResolveSound : Prop :=
  (∀ t, s.resolve asSection = .ok t → ∀ p, t.aliveSafePointers p → t.byKey p → t.object p ≠ none) ∧
    ∀ e, s.resolve asSection = .error e → e = .unresolvedReference

end Conditions

/-- The list of the key has an object. -/
def Bound (s : ReferenceManager O P) (key : ReferenceKey) : Prop :=
  ∃ list l, (key, list) ∈ s.keyMap ∧ s.lists list = some l ∧ l.reference ≠ none

/-- The list of the key has all of these pointers. -/
def Holds (s : ReferenceManager O P) (key : ReferenceKey) (ps : List P) : Prop :=
  ∃ list l, (key, list) ∈ s.keyMap ∧ s.lists list = some l ∧ ∀ p ∈ ps, p ∈ l.list

/-- What the loop of `resolve` keeps, from the state `s` that it starts in to a later one. -/
structure Resolving (asSection : O → Option (Nat → Option O)) (s t : ReferenceManager O P) : Prop where
  valid : Valid t
  alive : t.aliveSafePointers = s.aliveSafePointers
  byKey : t.byKey = s.byKey
  object : ∀ p, t.object p = none → s.object p = none
  keys : ∀ kind, kind ≠ .sectionOffset → t.keysOf kind = s.keysOf kind
  lists : ∀ list, ¬s.Touched asSection list → t.lists list = s.lists list
  touched : ∀ list, t.Touched asSection list → s.Touched asSection list
  alone : t.OffsetsAlone
  holds : ∀ key ps, key.kind = .sectionOffset → s.Holds key ps → t.Holds key ps
  bound : ∀ key, key.kind = .sectionOffset → s.Bound key → t.Bound key

variable {asSection : O → Option (Nat → Option O)}

omit [DecidableEq O] [DecidableEq P] in
theorem Resolving.start {s : ReferenceManager O P} (h : Valid s) (halone : s.OffsetsAlone) :
    Resolving asSection s s where
  valid := h
  alive := rfl
  byKey := rfl
  object _ ho := ho
  keys _ _ := rfl
  lists _ _ := rfl
  touched _ ht := ht
  alone := halone
  holds _ _ _ hh := hh
  bound _ _ hb := hb

omit [DecidableEq O] [DecidableEq P] in
theorem Resolving.trans {s t u : ReferenceManager O P} (h : Resolving asSection s t)
    (h' : Resolving asSection t u) : Resolving asSection s u where
  valid := h'.valid
  alive := h'.alive.trans h.alive
  byKey := h'.byKey.trans h.byKey
  object p ho := h.object p (h'.object p ho)
  keys kind hk := (h'.keys kind hk).trans (h.keys kind hk)
  lists list hl := (h'.lists list fun ht => hl (h.touched list ht)).trans (h.lists list hl)
  touched list ht := h.touched list (h'.touched list ht)
  alone := h'.alone
  holds key ps hk hh := h'.holds key ps hk (h.holds key ps hk hh)
  bound key hk hb := h'.bound key hk (h.bound key hk hb)

section Step
variable {s t : ReferenceManager O P} (h : Valid s) (halone : s.OffsetsAlone) {key : ReferenceKey}
  {list : Nat} {l : SafePointerList O P} (hkey : key.kind = .sectionOffset)
  (hmem : (key, list) ∈ s.keyMap) (hl : s.lists list = some l) (hr : l.reference = none)
include h halone hkey hmem hl hr

omit [DecidableEq O] [DecidableEq P] in
/-- The list of one offset key gets an object, or its pointers join a list that has one. -/
theorem Resolving.of_found {list' : Nat} {l' : SafePointerList O P} (ht : Valid t)
    (hkeys : t.keyMap = OrderedMap.set s.keyMap key list') (htouched : s.Touched asSection list')
    (halive : t.aliveSafePointers = s.aliveSafePointers) (hbyKey : t.byKey = s.byKey)
    (hobject : ∀ p, t.object p = none → s.object p = none)
    (hother : ∀ list'', list'' ≠ list → list'' ≠ list' → t.lists list'' = s.lists list'')
    (hgone : list ≠ list' → t.lists list = none)
    (hl' : t.lists list' = some l') (hr' : l'.reference ≠ none) (hsub : ∀ p ∈ l.list, p ∈ l'.list)
    (hsub' : ∀ m, s.lists list' = some m → ∀ p ∈ m.list, p ∈ l'.list)
    (hmap : ∀ x list'', t.referenceMap x = some list'' → s.referenceMap x = some list'' ∨ list'' = list') :
    Resolving asSection s t ∧ t.Bound key := by
  have hfound : (key, list') ∈ t.keyMap := by
    rw [hkeys]
    exact OrderedMap.mem_set.mpr (.inl rfl)
  have of_mem {key' : ReferenceKey} {list'' : Nat} (hk : (key', list'') ∈ t.keyMap) :
      key' = key ∧ list'' = list' ∨ key' ≠ key ∧ (key', list'') ∈ s.keyMap := by
    rw [hkeys] at hk
    rcases OrderedMap.mem_set.mp hk with he | hk
    · exact .inl ⟨congrArg Prod.fst he, congrArg Prod.snd he⟩
    · exact .inr hk
  have to_mem {key' : ReferenceKey} {list'' : Nat} (hne : key' ≠ key) (hk : (key', list'') ∈ s.keyMap) :
      (key', list'') ∈ t.keyMap := by
    rw [hkeys]
    exact OrderedMap.mem_set.mpr (.inr ⟨hne, hk⟩)
  have unchanged {list'' : Nat} {m : SafePointerList O P} (hm : t.lists list'' = some m)
      (hnone : m.reference = none) : list'' ≠ list' ∧ s.lists list'' = some m := by
    have hne' : list'' ≠ list' := by
      rintro rfl
      cases hl'.symm.trans hm
      exact hr' hnone
    have hne : list'' ≠ list := by
      rintro rfl
      cases (hgone hne').symm.trans hm
    exact ⟨hne', hother list'' hne hne' ▸ hm⟩
  have only {key' : ReferenceKey} (hk : (key', list) ∈ s.keyMap) : key' = key :=
    halone key list l hkey hmem hl hr key' hk
  refine ⟨?_, list', l', hfound, hl', hr'⟩
  exact {
    valid := ht
    alive := halive
    byKey := hbyKey
    object := hobject
    keys := by
      intro kind hkind
      have hout : decide (key.kind = kind) = false := by simpa [hkey] using hkind.symm
      simpa [keysOf, hkeys] using
        OrderedMap.filter_set h.ordered (f := fun k : ReferenceKey => decide (k.kind = kind)) hout list'
    lists := by
      intro list'' hnot
      have hne : list'' ≠ list := by rintro rfl; exact hnot (.inl ⟨key, hkey, hmem⟩)
      have hne' : list'' ≠ list' := by rintro rfl; exact hnot htouched
      exact hother list'' hne hne'
    touched := by
      rintro list'' (⟨key', hkind, hk⟩ | ⟨sec, chunk, offset, obj, hsec, hchunk, hm⟩)
      · rcases of_mem hk with ⟨_, rfl⟩ | ⟨_, hk⟩
        · exact htouched
        · exact .inl ⟨key', hkind, hk⟩
      · rcases hmap _ _ hm with hm | rfl
        · exact .inr ⟨sec, chunk, offset, obj, hsec, hchunk, hm⟩
        · exact htouched
    alone := by
      intro key' list'' m hkind hk hm hnone key'' hk''
      obtain ⟨hne, hm'⟩ := unchanged hm hnone
      have hs := (of_mem hk).resolve_left fun he => hne he.2
      have hs'' := (of_mem hk'').resolve_left fun he => hne he.2
      exact halone key' list'' m hkind hs.2 hm' hnone key'' hs''.2
    holds := by
      rintro key' ps _ ⟨list'', m, hk, hm, hps⟩
      by_cases he : key' = key
      · subst he
        cases OrderedMap.value_unique h.ordered hk hmem
        cases hl.symm.trans hm
        exact ⟨list', l', hfound, hl', fun p hp => hsub p (hps p hp)⟩
      · by_cases he' : list'' = list'
        · subst he'
          exact ⟨list'', l', to_mem he hk, hl', fun p hp => hsub' m hm p (hps p hp)⟩
        · have hne : list'' ≠ list := by rintro rfl; exact he (only hk)
          exact ⟨list'', m, to_mem he hk, (hother list'' hne he').trans hm, hps⟩
    bound := by
      rintro key' _ ⟨list'', m, hk, hm, hsome⟩
      have hne : list'' ≠ list := by
        rintro rfl
        cases hl.symm.trans hm
        exact hsome hr
      have he : key' ≠ key := by
        rintro rfl
        exact hne (OrderedMap.value_unique h.ordered hk hmem)
      by_cases he' : list'' = list'
      · subst he'
        exact ⟨list'', l', to_mem he hk, hl', hr'⟩
      · exact ⟨list'', m, to_mem he hk, (hother list'' hne he').trans hm, hsome⟩ }

/-- The chunk of an offset key is registered for it. -/
theorem add_chunk {section_ obj : O} {chunk : Nat → Option O} {offset : Nat}
    (hsection : asSection section_ = some chunk) (hchunk : chunk offset = some obj) :
    ∃ t, (s.newObject obj).genericAddObjectReference key obj = .ok t ∧
      Resolving asSection s t ∧ t.Bound key := by
  have hf : OrderedMap.find (s.newObject obj).keyMap key = some list := OrderedMap.find_of_mem h.ordered hmem
  have hs := h.newObject obj
  have hlone : (s.newObject obj).Alone key list := halone key list l hkey hmem hl hr
  cases hm : s.referenceMap (some obj) with
  | some refList =>
    obtain ⟨r, hlr, hrr⟩ := h.reference_of_registered hm
    have hne : list ≠ refList := by
      rintro rfl
      cases hl.symm.trans hlr
      cases hr.symm.trans hrr
    refine ⟨_, add_merged hs hf hl hr hm hlr hrr hlone, ?_⟩
    apply @Resolving.of_found _ _ _ _ _ h halone _ _ _ hkey hmem hl hr _ ⟨r.reference, _⟩ (hs.merge hl hlr hr hrr hlone)
    · rfl
    · exact .inr ⟨section_, chunk, offset, obj, hsection, hchunk, hm⟩
    · rfl
    · rfl
    · intro p hp
      have := (appendList_object (s.newObject obj) refList list r l p).symm.trans hp
      rw [hrr] at this
      split at this
      · cases this
      · exact this
    · intro list'' hne' hne''
      refine (deleteList_lists _ list list'').trans ?_
      rw [if_neg hne', appendList_lists, if_neg hne'', if_neg hne']
      rfl
    · intro _
      exact (deleteList_lists _ list list).trans (if_pos rfl)
    · refine (deleteList_lists _ list refList).trans ?_
      rw [if_neg hne.symm, appendList_lists, if_pos rfl]
    · simp [hrr]
    · simp +contextual
    · intro m hm' p hp
      cases hlr.symm.trans hm'
      simp [hp]
    · exact fun x list'' hx => .inl hx
  | none =>
    refine ⟨_, add_first hf hl hr hm, ?_⟩
    have hlive : (s.newObject obj).live obj := by simp [newObject, setLive_live]
    have hset := (hs.setKey key hl).adopt hl hr hm hlive
    apply @Resolving.of_found _ _ _ _ _ h halone _ _ _ hkey hmem hl hr _ { l with reference := some obj } hset
    · rfl
    · exact .inl ⟨key, hkey, hmem⟩
    · rfl
    · rfl
    · intro p hp
      have := (setReference_object (s.newObject obj) list l p (some obj)).symm.trans hp
      split at this
      · cases this
      · exact this
    · intro list'' hne _
      exact (setReference_lists _ list list'' l _).trans (if_neg hne)
    · exact fun hne => absurd rfl hne
    · exact (setReference_lists _ list list l _).trans (if_pos rfl)
    · simp
    · exact fun p hp => hp
    · intro m hm' p hp
      cases hl.symm.trans hm'
      exact hp
    · intro x list'' hx
      have := (setObject_referenceMap s (some obj) x (some list)).symm.trans hx
      split at this
      · exact .inr (Option.some.inj this).symm
      · exact .inl this

end Step

section Loop

omit [DecidableEq O] [DecidableEq P] in
theorem requestChunk_cases {s : ReferenceManager O P} (h : Valid s) (sectionId offset : Nat) :
    s.requestChunk asSection sectionId offset = .error .unresolvedReference ∨
      ∃ obj section_ chunk, s.requestChunk asSection sectionId offset = .ok obj ∧
        asSection section_ = some chunk ∧ chunk offset = some obj := by
  unfold requestChunk
  cases hf : OrderedMap.find s.keyMap (.sectionKey sectionId) with
  | none => exact .inl rfl
  | some pointersToSection =>
    obtain ⟨l, hl⟩ := h.keyed _ _ (OrderedMap.mem_of_find hf)
    simp only [listAt_eq hl, bind, Except.bind]
    cases hc : (l.reference.bind asSection).bind (· offset) with
    | none => exact .inl rfl
    | some obj =>
      obtain ⟨chunk, hchunk, hobj⟩ := Option.bind_eq_some_iff.mp hc
      obtain ⟨section_, _, hsection⟩ := Option.bind_eq_some_iff.mp hchunk
      exact .inr ⟨obj, section_, chunk, rfl, hsection, hobj⟩

theorem resolveOffset_cases {s : ReferenceManager O P} (h : Valid s) (halone : s.OffsetsAlone)
    {key : ReferenceKey} (hkey : key.kind = .sectionOffset) {list : Nat} (hmem : (key, list) ∈ s.keyMap) :
    s.resolveOffset asSection key = .error .unresolvedReference ∨
      ∃ t, s.resolveOffset asSection key = .ok t ∧ Resolving asSection s t ∧ t.Bound key := by
  have hf := OrderedMap.find_of_mem h.ordered hmem
  obtain ⟨l, hl⟩ := h.keyed key list hmem
  cases key with
  | sectionOffsetKey sectionId offset =>
    cases hr : l.reference with
    | some o =>
      have hm := h.owned list l o hl hr
      refine .inr ⟨s, ?_, Resolving.start h halone, list, l, hmem, hl, by simp [hr]⟩
      simp [resolveOffset, hf, listAt_eq hl, hr, hm, bind, Except.bind, pure, Except.pure]
    | none =>
      have hstep : s.resolveOffset asSection (.sectionOffsetKey sectionId offset) =
          s.requestChunk asSection sectionId offset >>= fun chunk =>
            (s.newObject chunk).genericAddObjectReference (.sectionOffsetKey sectionId offset) chunk := by
        simp [resolveOffset, hf, listAt_eq hl, hr, h.referenceMap_none, bind, Except.bind]
      rw [hstep]
      rcases @requestChunk_cases _ _ asSection _ h sectionId offset with he | ⟨obj, sec, chunk, he, hsec, hobj⟩
      · exact .inl (by rw [he]; rfl)
      · obtain ⟨t, ht, hres⟩ := add_chunk h halone hkey hmem hl hr hsec hobj
        exact .inr ⟨t, by rw [he]; exact ht, hres⟩
  | sectionKey | sectionIndexKey | fileOffsetKey => cases hkey

/-- The loop over the offset keys: the lists of all of them have an object in the end. -/
theorem resolve_loop {keys : List ReferenceKey} (hkeys : ∀ key ∈ keys, key.kind = .sectionOffset) :
    ∀ {s : ReferenceManager O P}, Valid s → s.OffsetsAlone → (∀ key ∈ keys, s.Holds key []) →
      keys.foldlM (resolveOffset asSection) s = .error .unresolvedReference ∨
        ∃ t, keys.foldlM (resolveOffset asSection) s = .ok t ∧ Resolving asSection s t ∧
          ∀ key ∈ keys, t.Bound key := by
  induction keys with
  | nil =>
    intro s h halone _
    exact .inr ⟨s, rfl, Resolving.start h halone, by simp⟩
  | cons key keys ih =>
    intro s h halone hhold
    have hkind := hkeys key List.mem_cons_self
    obtain ⟨list, _, hmem, _⟩ := hhold key List.mem_cons_self
    simp only [List.foldlM_cons]
    rcases @resolveOffset_cases _ _ _ _ asSection _ h halone _ hkind _ hmem with he | ⟨u, hu, hres, hbound⟩
    · exact .inl (by rw [he]; rfl)
    · have hrest : ∀ key' ∈ keys, u.Holds key' [] := fun key' hk =>
        hres.holds key' [] (hkeys key' (List.mem_cons_of_mem _ hk)) (hhold key' (List.mem_cons_of_mem _ hk))
      rw [hu]
      rcases ih (fun key' hk => hkeys key' (List.mem_cons_of_mem _ hk)) hres.valid hres.alone hrest with
        he | ⟨t, ht, hres', hbound'⟩
      · exact .inl he
      · refine .inr ⟨t, ht, hres.trans hres', ?_⟩
        intro key' hk
        cases hk with
        | head => exact hres'.bound key hkind hbound
        | tail _ hk => exact hbound' key' hk

end Loop

section Check
variable {s : ReferenceManager O P}

omit [DecidableEq O] [DecidableEq P] in
theorem unresolvedReferences_ok : ∀ {m : List (ReferenceKey × Nat)},
    (∀ e ∈ m, ∃ l, s.lists e.2 = some l) → ∃ b, s.unresolvedReferences m = .ok b := by
  intro m
  induction m with
  | nil => exact fun _ => ⟨false, rfl⟩
  | cons e m ih =>
    intro hall
    obtain ⟨l, hl⟩ := hall e List.mem_cons_self
    simp only [unresolvedReferences, listAt_eq hl, bind, Except.bind]
    split
    · exact ⟨_, rfl⟩
    · exact ih fun e' he' => hall e' (List.mem_cons_of_mem _ he')

omit [DecidableEq O] [DecidableEq P] in
/-- The first list with pointers answers. -/
theorem unresolvedReferences_first {e : ReferenceKey × Nat} {after : List (ReferenceKey × Nat)}
    {l : SafePointerList O P} (hl : s.lists e.2 = some l) (hne : l.list ≠ []) :
    ∀ {before : List (ReferenceKey × Nat)},
      (∀ e' ∈ before, ∃ l', s.lists e'.2 = some l' ∧ l'.list = []) →
      s.unresolvedReferences (before ++ e :: after) = .ok l.reference.isNone := by
  intro before
  induction before with
  | nil =>
    intro _
    have hlen : 0 < l.list.length := List.length_pos_iff.mpr hne
    simp [unresolvedReferences, listAt_eq hl, bind, Except.bind, hlen, pure, Except.pure]
  | cons e' before ih =>
    intro hbefore
    obtain ⟨l', hl', hempty⟩ := hbefore e' List.mem_cons_self
    have hrest := ih fun e'' he'' => hbefore e'' (List.mem_cons_of_mem _ he'')
    simp only [List.cons_append, unresolvedReferences, listAt_eq hl', bind, Except.bind, hempty,
      List.length_nil, lt_self_iff_false, ↓reduceIte, hrest]

omit [DecidableEq O] [DecidableEq P] in
/-- The checks of all maps end, and say together whether one of them found something. -/
theorem checks_ok (h : Valid s) : ∀ kinds : List KeyKind,
    ∃ found, (kinds.mapM fun kind => s.unresolvedReferences (s.keysOf kind)) = .ok found ∧
      (found.any id = false → ∀ kind ∈ kinds, s.unresolvedReferences (s.keysOf kind) = .ok false) := by
  intro kinds
  induction kinds with
  | nil => exact ⟨[], rfl, by simp⟩
  | cons kind kinds ih =>
    obtain ⟨b, hb⟩ : ∃ b, s.unresolvedReferences (s.keysOf kind) = .ok b :=
      unresolvedReferences_ok fun e he => h.keyed e.1 e.2 (List.mem_filter.mp he).1
    obtain ⟨found, hfound, hall⟩ := ih
    refine ⟨b :: found, by simp [List.mapM_cons, hb, hfound, bind, Except.bind, pure, Except.pure], ?_⟩
    intro hany kind' hk
    simp only [List.any_cons, id_eq, Bool.or_eq_false_iff] at hany
    cases hk with
    | head => simpa [hany.1] using hb
    | tail _ hk => exact hall hany.2 kind' hk

end Check

omit [DecidableEq O] [DecidableEq P] in
/-- A pending list is found by the check of its map after the loop. -/
theorem pending_found {s t : ReferenceManager O P} (h : Valid s) (hr : s.Resolvable asSection)
    (ht : Resolving asSection s t) {key : ReferenceKey} {list : Nat} (hmem : (key, list) ∈ s.keyMap)
    (hpending : s.Pending list) : t.unresolvedReferences (t.keysOf key.kind) = .ok true := by
  classical
  have hkind : key.kind ≠ .sectionOffset := hpending.2 key hmem
  have occupied_of_pending {list' : Nat} (hp : s.Pending list') : s.Occupied asSection list' :=
    .inr (hp.1.imp fun l hl => ⟨hl.1, hl.2.2⟩)
  have untouched {list' : Nat} (hp : s.Pending list') : ¬s.Touched asSection list' := by
    obtain ⟨⟨l, hl, hnone, _⟩, hno⟩ := hp
    rintro (⟨key', hkind', hk'⟩ | ⟨_, _, _, obj, _, _, hm⟩)
    · exact hno key' hk' hkind'
    · obtain ⟨l', hl', hsome⟩ := h.reference_of_registered hm
      cases hl.symm.trans hl'
      cases hnone.symm.trans hsome
  have hin : (key, list) ∈ s.keysOf key.kind := by simp [keysOf, hmem]
  -- the first list of the map that has pointers, or may get some
  obtain ⟨e, hfind⟩ : ∃ e, (s.keysOf key.kind).find? (fun e => decide (s.Occupied asSection e.2)) = some e := by
    apply Option.isSome_iff_exists.mp
    exact List.find?_isSome.mpr ⟨(key, list), hin, by simpa using occupied_of_pending hpending⟩
  obtain ⟨hocc, before, after, heq, hbefore⟩ := List.find?_eq_some_iff_append.mp hfind
  have hbefore' : ∀ e' ∈ before, ¬s.Occupied asSection e'.2 := by simpa using hbefore
  have hfirst := hr.first key.kind hkind before e after heq hbefore' (by simpa using hocc)
    ⟨(key, list), hin, hpending⟩
  obtain ⟨⟨l, hl, hnone, hne⟩, _⟩ := id hfirst
  have hempty : ∀ e' ∈ before, ∃ l', t.lists e'.2 = some l' ∧ l'.list = [] := by
    intro e' he'
    have hin' : e' ∈ s.keysOf key.kind := by simp [heq, he']
    obtain ⟨l', hl'⟩ := h.keyed e'.1 e'.2 (List.mem_filter.mp hin').1
    refine ⟨l', (ht.lists e'.2 fun htouched => hbefore' e' he' (.inl htouched)).trans hl', ?_⟩
    by_contra hsome
    exact hbefore' e' he' (.inr ⟨l', hl', hsome⟩)
  have hl' : t.lists e.2 = some l := (ht.lists e.2 (untouched hfirst)).trans hl
  have := @unresolvedReferences_first _ _ _ _ after _ hl' hne _ hempty
  rw [ht.keys key.kind hkind, heq, this, hnone]
  rfl

/-- When its conditions hold, `resolve` finds every missing reference. -/
theorem resolve_sound {s : ReferenceManager O P} (h : Valid s) (hr : s.Resolvable asSection) :
    s.ResolveSound asSection := by
  have hkeys : ∀ key ∈ (s.keysOf .sectionOffset).map (·.1), key.kind = .sectionOffset := by
    intro key hk
    obtain ⟨e, he, rfl⟩ := List.mem_map.mp hk
    simpa using (List.mem_filter.mp he).2
  have hholds : ∀ key ∈ (s.keysOf .sectionOffset).map (·.1), s.Holds key [] := by
    intro key hk
    obtain ⟨e, he, rfl⟩ := List.mem_map.mp hk
    have hmem := (List.mem_filter.mp he).1
    obtain ⟨l, hl⟩ := h.keyed e.1 e.2 hmem
    exact ⟨e.2, l, hmem, hl, by simp⟩
  rcases @resolve_loop _ _ _ _ asSection _ hkeys _ h hr.alone hholds with he | ⟨t, hloop, ht, hbound⟩
  · have herr : s.resolve asSection = .error .unresolvedReference := by simp [resolve, he, bind, Except.bind]
    simp [ResolveSound, herr]
  · obtain ⟨found, hfound, hall⟩ := checks_ok ht.valid checkedKinds
    cases hany : found.any id with
    | true =>
      have herr : s.resolve asSection = .error .unresolvedReference := by
        simp [resolve, hloop, hfound, hany, bind, Except.bind, throw, throwThe, MonadExceptOf.throw]
      simp [ResolveSound, herr]
    | false =>
      have hok : s.resolve asSection = .ok t := by
        simp [resolve, hloop, hfound, hany, bind, Except.bind, pure, Except.pure]
      refine ⟨?_, by simp [hok]⟩
      intro u hu p ha hk hnone
      cases hok.symm.trans hu
      obtain ⟨key, list, l, hmem, hl, hp⟩ := hr.inList p (ht.alive ▸ ha) (ht.byKey ▸ hk) (ht.object p hnone)
      have hnone' : l.reference = none :=
        (h.agrees list l p hl hp (ht.alive ▸ ha)).symm.trans (ht.object p hnone)
      by_cases hoffset : ∃ key', key'.kind = .sectionOffset ∧ (key', list) ∈ s.keyMap
      · -- the pointer has stayed with its offset key, which has an object now
        obtain ⟨key', hkind, hmem'⟩ := hoffset
        obtain ⟨list', l', hmem'', hl', hsub⟩ := ht.holds key' [p] hkind ⟨list, l, hmem', hl, by simpa using hp⟩
        obtain ⟨list'', l'', hmem3, hl'', hsome⟩ := hbound key'
          (List.mem_map.mpr ⟨(key', list), by simp [keysOf, hmem', hkind], rfl⟩)
        cases OrderedMap.value_unique ht.valid.ordered hmem'' hmem3
        cases hl'.symm.trans hl''
        have := ht.valid.agrees list' l' p hl' (hsub p (by simp)) ha
        exact hsome (this.symm.trans hnone)
      · have hpending : s.Pending list := by
          refine ⟨⟨l, hl, hnone', fun he => by simp [he] at hp⟩, fun key' hk hkind => ?_⟩
          exact hoffset ⟨key', hkind, hk⟩
        have hfoundIt := pending_found h hr ht hmem hpending
        have hchecked := hall hany key.kind (by cases key.kind <;> simp [checkedKinds])
        rw [hchecked] at hfoundIt
        cases hfoundIt

end Tce.TPEF.ReferenceManager
