/-!
# Backtracking

A search gives each of `n` levels a candidate. The candidates of a level depend
on what the levels before it were given. `firstPath` is the recursive search;
`Config.next` is one step of the search by hand, which keeps for each level it
has given a candidate the ones not tried yet.

* `firstPath_eq_some` and `firstPath_eq_none`: the search finds a path if there
  is one;
* `finishes`: the steps end with the result of the recursive search;
* `Follows.loop_eq`: so does a loop whose rounds follow the steps;
* `loop_ends`: what the rounds of a loop keep.
-/

namespace Tce.Backtracking

variable {R : Type} {cands : List R → List R}

/-- The candidates of the levels after `path` are chosen in turn. -/
inductive IsPath (cands : List R → List R) : List R → List R → Prop
  | nil (path : List R) : IsPath cands path []
  | cons {path rest : List R} {r : R} : r ∈ cands path → IsPath cands (path ++ [r]) rest → IsPath cands path (r :: rest)

/-- The first of the paths that give `levels` more levels a candidate. -/
def firstPath (cands : List R → List R) : Nat → List R → Option (List R)
  | 0, _ => some []
  | levels + 1, path => (cands path).findSome? fun r => (firstPath cands levels (path ++ [r])).map (r :: ·)

theorem firstPath_eq_some {levels : Nat} {path found : List R} (h : firstPath cands levels path = some found) :
    IsPath cands path found ∧ found.length = levels := by
  induction levels generalizing path found with
  | zero =>
    cases h
    exact ⟨.nil path, rfl⟩
  | succ levels ih =>
    unfold firstPath at h
    obtain ⟨r, hr, hmap⟩ := List.exists_of_findSome?_eq_some h
    obtain ⟨rest, hrest, rfl⟩ := Option.map_eq_some_iff.1 hmap
    obtain ⟨hpath, hlength⟩ := ih hrest
    exact ⟨.cons hr hpath, congrArg (· + 1) hlength⟩

theorem firstPath_eq_none {levels : Nat} {path : List R} (h : firstPath cands levels path = none) {found : List R}
    (hpath : IsPath cands path found) : found.length ≠ levels := by
  induction levels generalizing path found with
  | zero => cases h
  | succ levels ih =>
    unfold firstPath at h
    rw [List.findSome?_eq_none_iff] at h
    cases hpath with
    | nil => simp
    | cons hr hpath =>
      have hnone := Option.map_eq_none_iff.1 (h _ hr)
      simpa using ih hnone hpath

/-- The search finds a path if there is one. -/
theorem firstPath_isSome {levels : Nat} {path : List R} :
    (firstPath cands levels path).isSome = true ↔ ∃ found, IsPath cands path found ∧ found.length = levels := by
  constructor
  · intro h
    obtain ⟨found, hfound⟩ := Option.isSome_iff_exists.1 h
    exact ⟨found, firstPath_eq_some hfound⟩
  · rintro ⟨found, hpath, hlength⟩
    cases h : firstPath cands levels path with
    | none => exact absurd hlength (firstPath_eq_none h hpath)
    | some found => rfl

/-- A level that was given a candidate, with those not tried yet. -/
structure Frame (R : Type) where
  chosen : R
  untried : List R

/-- `frames` are the levels that were given a candidate, the last one first;
`untried` are the candidates left for the next level. -/
structure Config (R : Type) where
  frames : List (Frame R)
  untried : List R

namespace Config

def path (c : Config R) : List R := (c.frames.map (·.chosen)).reverse

def start (cands : List R → List R) : Config R := ⟨[], cands []⟩

/-- The next configuration, or the path found if any. -/
def next (cands : List R → List R) (n : Nat) (c : Config R) : Config R ⊕ Option (List R) :=
  match c.untried, c.frames with
  | [], [] => .inr none
  | [], frame :: frames => .inl ⟨frames, frame.untried⟩
  | r :: untried, frames =>
    if frames.length + 1 = n then .inr (some (c.path ++ [r]))
    else .inl ⟨⟨r, untried⟩ :: frames, cands (c.path ++ [r])⟩

end Config

/-- What the frames give, and have left, are candidates of their levels. -/
inductive Frames (cands : List R → List R) : List (Frame R) → Prop
  | nil : Frames cands []
  | cons {frame : Frame R} {frames : List (Frame R)} : Frames cands frames →
    (∀ r ∈ frame.chosen :: frame.untried, r ∈ cands (frames.map (·.chosen)).reverse) → Frames cands (frame :: frames)

structure Config.Sound (cands : List R → List R) (c : Config R) : Prop where
  frames : Frames cands c.frames
  untried : ∀ r ∈ c.untried, r ∈ cands c.path

theorem Config.sound_start : (Config.start cands).Sound cands := ⟨.nil, fun _ h => h⟩

theorem Config.Sound.next {n : Nat} {c c' : Config R} (h : c.Sound cands) (hnext : c.next cands n = .inl c') :
    c'.Sound cands := by
  obtain ⟨frames, untried⟩ := c
  cases untried with
  | nil =>
    cases frames with
    | nil => cases hnext
    | cons frame frames =>
      cases hnext
      cases h.frames with
      | cons hframes hmem => exact ⟨hframes, fun r hr => hmem r (List.mem_cons_of_mem _ hr)⟩
  | cons r untried =>
    unfold Config.next at hnext
    dsimp only at hnext
    split at hnext
    · cases hnext
    · cases hnext
      exact ⟨.cons h.frames h.untried, fun _ hr => by simpa [Config.path] using hr⟩

/-- Steps from `c` end with `result`. -/
inductive Finishes (cands : List R → List R) (n : Nat) : Config R → Option (List R) → Prop
  | last {c : Config R} {result : Option (List R)} : c.next cands n = .inr result → Finishes cands n c result
  | step {c c' : Config R} {result : Option (List R)} :
      c.next cands n = .inl c' → Finishes cands n c' result → Finishes cands n c result

variable {n : Nat}

/-- The first path whose next candidate is among the `untried` ones. -/
def completion (cands : List R → List R) (levels : Nat) (path untried : List R) : Option (List R) :=
  untried.findSome? fun r => (firstPath cands levels (path ++ [r])).map (r :: ·)

/-- A level tries its candidates and then goes back. -/
theorem finishes_level {levels : Nat} {frames : List (Frame R)} (hlevels : frames.length + 1 + levels = n)
    {untried path : List R} (hpath : (frames.map (·.chosen)).reverse = path) {result : Option (List R)}
    (hback : Finishes cands n ⟨frames, []⟩ result) :
    Finishes cands n ⟨frames, untried⟩ (((completion cands levels path untried).map (path ++ ·)).or result) := by
  induction levels generalizing frames untried path result with
  | zero =>
    cases untried with
    | nil => exact hback
    | cons r untried =>
      apply Finishes.last
      unfold Config.next
      dsimp only
      rw [if_pos (by omega), ← hpath]
      rfl
  | succ levels ih =>
    induction untried with
    | nil => exact hback
    | cons r untried ihu =>
      have hnext : Config.next cands n ⟨frames, r :: untried⟩ =
          .inl ⟨⟨r, untried⟩ :: frames, cands (path ++ [r])⟩ := by
        unfold Config.next
        dsimp only
        rw [if_neg (by omega), ← hpath]
        rfl
      have hpath' : ((Frame.mk r untried :: frames).map (·.chosen)).reverse = path ++ [r] := by simp [hpath]
      -- when the levels after it have no path the next candidate is tried
      have hlevel : Finishes cands n ⟨⟨r, untried⟩ :: frames, cands (path ++ [r])⟩ _ :=
        ih (by simp only [List.length_cons]; omega) hpath' (.step rfl ihu)
      apply Finishes.step hnext
      have hfirst : completion cands levels (path ++ [r]) (cands (path ++ [r])) =
          firstPath cands (levels + 1) (path ++ [r]) := rfl
      rw [hfirst] at hlevel
      unfold completion at hlevel ⊢
      rw [List.findSome?_cons]
      cases h : firstPath cands (levels + 1) (path ++ [r]) with
      | none =>
        rw [h] at hlevel
        exact hlevel
      | some found =>
        rw [h] at hlevel
        simpa using hlevel

/-- The steps end with the result of the recursive search. -/
theorem finishes {levels : Nat} : Finishes cands (levels + 1) (.start cands) (firstPath cands (levels + 1) []) := by
  have h : Finishes cands (levels + 1) ⟨[], cands []⟩
      (((completion cands levels [] (cands [])).map ([] ++ ·)).or none) :=
    finishes_level (Nat.add_comm 1 levels) rfl (.last rfl)
  rw [Option.or_none, Option.map_congr fun _ _ => List.nil_append _, Option.map_id'] at h
  exact h

/-- A loop whose rounds follow the steps of the search: `tracks` relates the
two, and `ends` the states at the end to the result. -/
structure Follows (cands : List R → List R) (n : Nat) {S T : Type} (round : S → T ⊕ S) (tracks : Config R → S → Prop)
    (ends : Option (List R) → T → Prop) : Prop where
  next : ∀ c s, tracks c s → ∀ c', c.next cands n = .inl c' → ∃ s', round s = .inr s' ∧ tracks c' s'
  last : ∀ c s, tracks c s → ∀ result, c.next cands n = .inr result → ∃ t, round s = .inl t ∧ ends result t

/-- Rounds until one of them ends the loop. -/
def loop {S T : Type} (round : S → T ⊕ S) : Nat → S → Option T
  | 0, _ => none
  | fuel + 1, s => (round s).elim some (loop round fuel)

theorem loop_mono {S T : Type} {round : S → T ⊕ S} {fuel : Nat} {s : S} {t : T} (h : loop round fuel s = some t)
    {fuel' : Nat} (hle : fuel ≤ fuel') : loop round fuel' s = some t := by
  induction fuel generalizing fuel' s with
  | zero => cases h
  | succ fuel ih =>
    cases fuel' with
    | zero => omega
    | succ fuel' =>
      unfold loop at h ⊢
      cases hround : round s with
      | inl t' =>
        rw [hround] at h
        exact h
      | inr s' =>
        rw [hround] at h
        exact ih h (by omega)

/-- What the rounds keep leads to what holds at the end. -/
theorem loop_ends {S T : Type} {round : S → T ⊕ S} {I : S → Prop} {Q : T → Prop}
    (hnext : ∀ s s', I s → round s = .inr s' → I s') (hlast : ∀ s t, I s → round s = .inl t → Q t)
    {fuel : Nat} {s : S} {t : T} (hs : I s) (h : loop round fuel s = some t) : Q t := by
  induction fuel generalizing s with
  | zero => cases h
  | succ fuel ih =>
    unfold loop at h
    cases hround : round s with
    | inl t' =>
      rw [hround] at h
      cases h
      exact hlast s t hs hround
    | inr s' =>
      rw [hround] at h
      exact ih (hnext s s' hs hround) h

/-- Rounds that end with another value. -/
theorem loop_map {S T T' : Type} {round : S → T ⊕ S} {round' : S → T' ⊕ S} {g : T → T'}
    (h : ∀ s, round' s = (round s).map g id) (fuel : Nat) (s : S) :
    loop round' fuel s = (loop round fuel s).map g := by
  induction fuel generalizing s with
  | zero => rfl
  | succ fuel ih =>
    unfold loop
    rw [h]
    cases round s with
    | inl t => rfl
    | inr s' => exact ih s'

theorem Follows.loop_eq {S T : Type} {round : S → T ⊕ S} {tracks : Config R → S → Prop}
    {ends : Option (List R) → T → Prop} (h : Follows cands n round tracks ends) {c : Config R}
    {result : Option (List R)} (hfinishes : Finishes cands n c result) :
    ∀ s, tracks c s → ∃ fuel t, loop round fuel s = some t ∧ ends result t := by
  induction hfinishes with
  | last hnext =>
    intro s hs
    obtain ⟨t, hround, hends⟩ := h.last _ s hs _ hnext
    refine ⟨1, t, ?_, hends⟩
    unfold loop
    rw [hround]
    rfl
  | step hnext _ ih =>
    intro s hs
    obtain ⟨s', hround, hs'⟩ := h.next _ s hs _ hnext
    obtain ⟨fuel, t, hloop, hends⟩ := ih s' hs'
    refine ⟨fuel + 1, t, ?_, hends⟩
    unfold loop
    rw [hround]
    exact hloop

/-- A loop that starts with the search ends with its result. -/
theorem Follows.ends_search {S T : Type} {round : S → T ⊕ S} {tracks : Config R → S → Prop}
    {ends : Option (List R) → T → Prop} (h : Follows cands n round tracks ends) (hpos : 0 < n) {s : S}
    (hs : tracks (.start cands) s) :
    ∃ fuel t, (∀ fuel' ≥ fuel, loop round fuel' s = some t) ∧ ends (firstPath cands n []) t := by
  obtain ⟨levels, rfl⟩ := Nat.exists_eq_succ_of_ne_zero (Nat.pos_iff_ne_zero.1 hpos)
  obtain ⟨fuel, t, hloop, hends⟩ := h.loop_eq finishes s hs
  exact ⟨fuel, t, fun fuel' hle => loop_mono hloop hle, hends⟩

end Tce.Backtracking
