import Diachrony.Proofs.ClassPairing

/-!
# Counting through the choices

The choices of one member for each of some classes, found by a loop that counts like an odometer:
the last place counts up, and a place that has reached the size of its class starts again and
carries to the place before it.  The loop ends, and what it yields are the choices in the order in
which they are paired.
-/

namespace Diachrony.RuleText

/-- A place for each of some classes, and the choice that is shown unless all have been. -/
structure Odometer where
  sizes : List Nat
  shown : Option (List Nat)
  deriving DecidableEq, Repr

namespace Odometer

def start (sizes : List Nat) : Odometer :=
  ⟨sizes, if sizes.contains 0 then none else some (List.replicate sizes.length 0)⟩

/-- Count up the place before `position`, or else start it again and carry.  Gives the places and
whether one of them has counted up. -/
def carry (sizes : List Nat) : Nat → List Nat → List Nat × Bool
  | 0, places => (places, false)
  | position + 1, places =>
      let place := places.getD position 0 + 1
      if place < sizes.getD position 0 then (places.set position place, true)
      else carry sizes position (places.set position 0)

def next? (odometer : Odometer) : Option (List Nat × Odometer) :=
  odometer.shown.map fun places =>
    let (next, counted) := carry odometer.sizes places.length places
    (places, { odometer with shown := if counted then some next else none })

/-- Whether an odometer comes to its end, and what it shows until then. -/
inductive Exhausts : Odometer → List (List Nat) → Prop
  | finished {odometer : Odometer} (h : odometer.next? = none) : Exhausts odometer []
  | turn {odometer next : Odometer} {places : List Nat} {later : List (List Nat)}
      (h : odometer.next? = some (places, next)) (hlater : Exhausts next later) :
      Exhausts odometer (places :: later)

/-! ## Carrying -/

/-- The first of several places counts up only when the others have started again. -/
theorem carry_cons (size place : Nat) (sizes : List Nat) (position : Nat) (places : List Nat) :
    carry (size :: sizes) (position + 1) (place :: places) =
      if (carry sizes position places).2 then (place :: (carry sizes position places).1, true)
      else if place + 1 < size then ((place + 1) :: (carry sizes position places).1, true)
      else (0 :: (carry sizes position places).1, false) := by
  induction position generalizing places with
  | zero => simp [carry]
  | succ position ih =>
      rw [carry, List.getD_cons_succ, List.getD_cons_succ, List.set_cons_succ, List.set_cons_succ,
        ih]
      rw [carry]
      split <;> rfl

def choicesFrom : List Nat → List Nat → List (List Nat)
  | size :: sizes, place :: places =>
      (choicesFrom sizes places).map (place :: ·) ++
        (List.range' (place + 1) (size - (place + 1))).flatMap fun later =>
          (choicesOf (sizes.map List.range)).map (later :: ·)
  | _, _ => [[]]

theorem choicesFrom_zeros {sizes : List Nat} (hpos : ∀ size ∈ sizes, 0 < size) :
    choicesFrom sizes (List.replicate sizes.length 0) = choicesOf (sizes.map List.range) := by
  induction sizes with
  | nil => rfl
  | cons size sizes ih =>
      obtain ⟨hsize, hsizes⟩ := List.forall_mem_cons.1 hpos
      have hrange : List.range size = 0 :: List.range' 1 (size - 1) := by
        rw [List.range_eq_range', ← Nat.succ_pred_eq_of_pos hsize, List.range'_succ]
        rfl
      rw [List.length_cons, List.replicate_succ, choicesFrom, ih hsizes, List.map_cons, choicesOf,
        hrange, List.flatMap_cons]

theorem pos_of_picks {sizes places : List Nat} (h : Picks sizes places) :
    ∀ size ∈ sizes, 0 < size := by
  induction h with
  | nil => simp
  | cons hplace _ ih => exact List.forall_mem_cons.2 ⟨Nat.zero_lt_of_lt hplace, ih⟩

theorem picks_zeros {sizes : List Nat} (hpos : ∀ size ∈ sizes, 0 < size) :
    Picks sizes (List.replicate sizes.length 0) := by
  induction sizes with
  | nil => exact .nil
  | cons size sizes ih =>
      obtain ⟨hsize, hsizes⟩ := List.forall_mem_cons.1 hpos
      exact .cons hsize (ih hsizes)

/-- After a choice come those from the one that carrying leads to, if it leads to one; if not,
every place has started again. -/
theorem choicesFrom_eq_cons {sizes places next : List Nat} {counted : Bool}
    (h : Picks sizes places) (hcarry : carry sizes places.length places = (next, counted)) :
    choicesFrom sizes places = places :: (if counted then choicesFrom sizes next else []) ∧
      if counted then Picks sizes next else next = List.replicate sizes.length 0 := by
  induction h generalizing next counted with
  | nil =>
      cases hcarry
      exact ⟨rfl, rfl⟩
  | @cons place size places sizes hplace hplaces ih =>
      rw [List.length_cons, carry_cons] at hcarry
      rcases hrest : carry sizes places.length places with ⟨later, done⟩
      rw [hrest] at hcarry
      obtain ⟨hfrom, hlater⟩ := ih hrest
      rw [choicesFrom, hfrom, List.map_cons, List.cons_append]
      cases done with
      | true =>
          cases hcarry
          exact ⟨rfl, .cons hplace hlater⟩
      | false =>
          rw [if_neg Bool.false_ne_true] at hlater hcarry
          subst hlater
          by_cases hroom : place + 1 < size
          · rw [if_pos hroom] at hcarry
            cases hcarry
            have hpos := pos_of_picks hplaces
            have hrange : List.range' (place + 1) (size - (place + 1)) =
                (place + 1) :: List.range' (place + 1 + 1) (size - (place + 1 + 1)) := by
              rw [← List.range'_succ]
              congr 1
              omega
            refine ⟨?_, .cons hroom (picks_zeros hpos)⟩
            rw [if_pos rfl, choicesFrom, choicesFrom_zeros hpos, hrange, List.flatMap_cons]
            rfl
          · rw [if_neg hroom] at hcarry
            cases hcarry
            have hend : size - (place + 1) = 0 := Nat.sub_eq_zero_of_le (Nat.not_lt.1 hroom)
            rw [hend]
            exact ⟨rfl, rfl⟩

/-! ## Counting to the end -/

def IsSound (odometer : Odometer) : Prop :=
  ∀ places ∈ odometer.shown, Picks odometer.sizes places

def remaining (odometer : Odometer) : List (List Nat) :=
  odometer.shown.elim [] (choicesFrom odometer.sizes)

/-- An odometer for an empty class shows nothing, and any other starts with all places at zero. -/
theorem start_cases (sizes : List Nat) :
    0 ∈ sizes ∧ start sizes = ⟨sizes, none⟩ ∨
      (∀ size ∈ sizes, 0 < size) ∧
        start sizes = ⟨sizes, some (List.replicate sizes.length 0)⟩ := by
  by_cases hzero : sizes.contains 0 = true
  · exact .inl ⟨List.contains_iff_mem.1 hzero, by rw [start, if_pos hzero]⟩
  · refine .inr ⟨fun size hsize => Nat.pos_of_ne_zero ?_, by rw [start, if_neg hzero]⟩
    rintro rfl
    exact hzero (List.contains_iff_mem.2 hsize)

theorem isSound_start (sizes : List Nat) : (start sizes).IsSound := by
  intro places hplaces
  rcases start_cases sizes with ⟨-, hstart⟩ | ⟨hpos, hstart⟩
  · rw [hstart] at hplaces
    cases hplaces
  · rw [hstart, Option.mem_some_iff] at hplaces
    rw [hstart, ← hplaces]
    exact picks_zeros hpos

theorem choicesOf_eq_nil {sizes : List Nat} (h : 0 ∈ sizes) :
    choicesOf (sizes.map List.range) = [] := by
  refine List.eq_nil_iff_forall_not_mem.2 fun places hplaces => ?_
  exact absurd (pos_of_picks (mem_choicesOf_range_iff.1 hplaces) 0 h) (Nat.lt_irrefl 0)

theorem remaining_start (sizes : List Nat) :
    (start sizes).remaining = choicesOf (sizes.map List.range) := by
  rcases start_cases sizes with ⟨hzero, hstart⟩ | ⟨hpos, hstart⟩
  · rw [hstart, choicesOf_eq_nil hzero]
    rfl
  · rw [hstart, ← choicesFrom_zeros hpos]
    rfl

theorem remaining_of_next? {odometer next : Odometer} {places : List Nat}
    (hsound : odometer.IsSound) (h : odometer.next? = some (places, next)) :
    odometer.remaining = places :: next.remaining ∧ next.IsSound := by
  obtain ⟨shown, hshown, hnext⟩ := Option.map_eq_some_iff.1 h
  rcases hcarry : carry odometer.sizes shown.length shown with ⟨later, counted⟩
  rw [hcarry] at hnext
  cases hnext
  obtain ⟨hfrom, hlater⟩ := choicesFrom_eq_cons (hsound places hshown) hcarry
  rw [remaining, hshown, Option.elim_some, hfrom]
  cases counted with
  | true =>
      refine ⟨rfl, fun places hplaces => ?_⟩
      cases hplaces
      exact hlater
  | false => exact ⟨rfl, fun places hplaces => by cases hplaces⟩

theorem remaining_of_next?_eq_none {odometer : Odometer} (h : odometer.next? = none) :
    odometer.remaining = [] := by
  rw [remaining, Option.map_eq_none_iff.1 h]
  rfl

theorem Exhausts.eq_remaining {odometer : Odometer} {all : List (List Nat)}
    (h : odometer.Exhausts all) (hsound : odometer.IsSound) : all = odometer.remaining := by
  induction h with
  | finished h => rw [remaining_of_next?_eq_none h]
  | turn h _ ih =>
      obtain ⟨hremaining, hnext⟩ := remaining_of_next? hsound h
      rw [hremaining, ih hnext]

theorem exhausts_remaining {odometer : Odometer} (hsound : odometer.IsSound) :
    odometer.Exhausts odometer.remaining := by
  induction hleft : odometer.remaining generalizing odometer with
  | nil =>
      cases hnext : odometer.next? with
      | none => exact .finished hnext
      | some result =>
          rw [(remaining_of_next? hsound hnext).1] at hleft
          cases hleft
  | cons places later ih =>
      cases hnext : odometer.next? with
      | none =>
          rw [remaining_of_next?_eq_none hnext] at hleft
          cases hleft
      | some result =>
          obtain ⟨hremaining, hsoundNext⟩ := remaining_of_next? hsound hnext
          rw [hremaining, List.cons.injEq] at hleft
          obtain ⟨rfl, rfl⟩ := hleft
          exact .turn hnext (ih hsoundNext rfl)

/-- From its start an odometer comes to its end, and it shows each choice once, in lexicographic
order. -/
theorem exhausts_start_iff_listsPicks {sizes : List Nat} {choices : List (List Nat)} :
    (start sizes).Exhausts choices ↔ ListsPicks sizes choices := by
  have hlists := listsPicks_choicesOf_range sizes
  constructor
  · intro h
    rwa [h.eq_remaining (isSound_start sizes), remaining_start]
  · intro h
    rw [h.eq hlists, ← remaining_start]
    exact exhausts_remaining (isSound_start sizes)

/-- The changes of two sides whose classes are paired come one from each choice that an odometer
shows. -/
theorem forall₂_pickedChanges_of_exhausts {source target : List Item}
    (hpaired : classSizes target <+: classSizes source) {choices : List (List Nat)}
    (h : (start (classSizes source)).Exhausts choices) :
    List.Forall₂ (fun places change => tokensAt? source places = some change.input ∧
      tokensAt? target places = some change.output) choices (pickedChanges source target) := by
  rw [(exhausts_start_iff_listsPicks.1 h).eq (listsPicks_choicesOf_range _)]
  exact forall₂_pickedChanges hpaired

/-- Between two classes with two members each one with a single member never counts up. -/
example : ListsPicks [2, 1, 2] [[0, 0, 0], [0, 0, 1], [1, 0, 0], [1, 0, 1]] :=
  exhausts_start_iff_listsPicks.1 (.turn rfl (.turn rfl (.turn rfl (.turn rfl (.finished rfl)))))

end Odometer

end Diachrony.RuleText
