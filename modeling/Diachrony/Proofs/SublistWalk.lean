import Mathlib.Algebra.Order.Ring.Nat
import Mathlib.Data.List.Chain
import Diachrony.Proofs.Preimage

/-!
# Walking over the choices of places

The choices of places that are far enough apart, found by a loop instead of a recursion.  The
loop keeps a stack of choices that are still open and takes the topmost one a place further in
every turn.  What the stack stands for is at each moment what the loop has yet to yield, so it
yields each choice once, and every turn takes it nearer to its end.
-/

namespace Diachrony

/-! ## The choices -/

/-- Places are apart if each is far enough behind the one before it. -/
theorem spaced_iff_isChain {width least : Nat} {places : List Nat} :
    Spaced width least places ↔
      (∀ first ∈ places.head?, least ≤ first) ∧
        places.IsChain fun earlier later => earlier + width ≤ later := by
  induction places generalizing least with
  | nil => simp [Spaced]
  | cons start rest ih =>
      rw [Spaced, ih, List.isChain_cons]
      simp

theorem mem_spacedSublists_zero {width : Nat} {places chosen : List Nat} :
    chosen ∈ spacedSublists width 0 places ↔
      chosen.Sublist places ∧
        chosen.IsChain fun earlier later => earlier + width ≤ later := by
  rw [mem_spacedSublists, spaced_iff_isChain]
  simp

/-- Choices that differ at the first place differ, so among different places none comes twice. -/
theorem nodup_spacedSublists {places : List Nat} (hplaces : places.Nodup) (width least : Nat) :
    (spacedSublists width least places).Nodup := by
  induction places generalizing least with
  | nil => exact List.nodup_singleton []
  | cons start rest ih =>
      obtain ⟨hstart, hrest⟩ := List.nodup_cons.1 hplaces
      have hwith : ∀ chosen ∈ (spacedSublists width (start + width) rest).map (start :: ·),
          start ∈ chosen := by
        intro chosen hchosen
        obtain ⟨others, -, rfl⟩ := List.mem_map.1 hchosen
        exact List.mem_cons_self
      have hwithout : ∀ chosen ∈ spacedSublists width least rest, start ∉ chosen :=
        fun chosen hchosen hmem => hstart ((mem_spacedSublists.1 hchosen).1.subset hmem)
      rw [spacedSublists]
      split
      · refine List.Nodup.append ((ih hrest _).map (List.cons_injective)) (ih hrest least) ?_
        exact fun chosen hfirst hsecond => hwithout chosen hsecond (hwith chosen hfirst)
      · simpa using ih hrest least

/-! ## The loop -/

/-- A choice that is still open: the number of places decided on, and those of them chosen. -/
structure OpenChoice where
  decided : Nat
  chosen : List Nat
  deriving DecidableEq, Repr

/-- A walk over the choices among some places, with those still open as a stack. -/
structure SublistWalk where
  places : List Nat
  width : Nat
  pending : List OpenChoice
  deriving DecidableEq, Repr

namespace SublistWalk

def start (width : Nat) (places : List Nat) : SublistWalk :=
  ⟨places, width, [⟨0, []⟩]⟩

def fits (walk : SublistWalk) (chosen : List Nat) (place : Nat) : Bool :=
  chosen.getLast?.all fun last => last + walk.width ≤ place

/-- One turn of the loop.  The topmost choice is yielded if all places are decided on;
otherwise it goes on without the next place and, before that, with it if it fits. -/
def turn? (walk : SublistWalk) : Option (Option (List Nat) × SublistWalk) :=
  match walk.pending with
  | [] => none
  | ⟨decided, chosen⟩ :: rest =>
      match walk.places[decided]? with
      | none => some (some chosen, { walk with pending := rest })
      | some place =>
          let without := ⟨decided + 1, chosen⟩ :: rest
          let pending :=
            if walk.fits chosen place then ⟨decided + 1, chosen ++ [place]⟩ :: without
            else without
          some (none, { walk with pending })

/-- Whether a walk comes to its end, and what it yields until then. -/
inductive Exhausts : SublistWalk → List (List Nat) → Prop
  | finished {walk : SublistWalk} (h : walk.turn? = none) : Exhausts walk []
  | turn {walk next : SublistWalk} {yielded : Option (List Nat)} {later : List (List Nat)}
      (h : walk.turn? = some (yielded, next)) (hlater : Exhausts next later) :
      Exhausts walk (yielded.toList ++ later)

theorem pending_of_turn?_eq_none {walk : SublistWalk} (h : walk.turn? = none) :
    walk.pending = [] := by
  unfold turn? at h
  split at h
  · assumption
  · split at h <;> cases h

theorem turn?_cases {walk next : SublistWalk} {yielded : Option (List Nat)}
    (h : walk.turn? = some (yielded, next)) :
    ∃ decided chosen rest, walk.pending = ⟨decided, chosen⟩ :: rest ∧
      (walk.places[decided]? = none ∧ yielded = some chosen ∧
          next = { walk with pending := rest } ∨
        ∃ place, walk.places[decided]? = some place ∧ yielded = none ∧
          next = { walk with pending :=
            (if walk.fits chosen place then [⟨decided + 1, chosen ++ [place]⟩] else []) ++
              ⟨decided + 1, chosen⟩ :: rest }) := by
  unfold turn? at h
  split at h
  · cases h
  · rename_i decided chosen rest hpending
    refine ⟨decided, chosen, rest, hpending, ?_⟩
    split at h
    · rename_i hplace
      cases h
      exact .inl ⟨hplace, rfl, rfl⟩
    · rename_i place hplace
      cases h
      refine .inr ⟨place, hplace, rfl, ?_⟩
      split <;> rfl

/-! ## What is yet to be yielded -/

/-- The choices that an open one leads to: what is chosen already, with a choice among the
places not decided on that are far enough behind. -/
def completions (walk : SublistWalk) (choice : OpenChoice) : List (List Nat) :=
  (spacedSublists walk.width (choice.chosen.getLast?.elim 0 (· + walk.width))
    (walk.places.drop choice.decided)).map (choice.chosen ++ ·)

def remaining (walk : SublistWalk) : List (List Nat) :=
  walk.pending.flatMap walk.completions

theorem remaining_pending (walk : SublistWalk) (pending : List OpenChoice) :
    { walk with pending }.remaining = pending.flatMap walk.completions := rfl

theorem remaining_start (width : Nat) (places : List Nat) :
    (start width places).remaining = spacedSublists width 0 places := by
  simp [remaining, completions, start]

theorem completions_of_none {walk : SublistWalk} {decided : Nat}
    (h : walk.places[decided]? = none) (chosen : List Nat) :
    walk.completions ⟨decided, chosen⟩ = [chosen] := by
  rw [completions, List.drop_eq_nil_of_le (List.getElem?_eq_none_iff.1 h), spacedSublists]
  simp

theorem completions_of_some {walk : SublistWalk} {decided place : Nat}
    (h : walk.places[decided]? = some place) (chosen : List Nat) :
    walk.completions ⟨decided, chosen⟩ =
      (if walk.fits chosen place then walk.completions ⟨decided + 1, chosen ++ [place]⟩
        else []) ++ walk.completions ⟨decided + 1, chosen⟩ := by
  have hfits : walk.fits chosen place = true ↔
      chosen.getLast?.elim 0 (· + walk.width) ≤ place := by
    unfold fits
    cases chosen.getLast? <;> simp
  obtain ⟨hlt, rfl⟩ := List.getElem?_eq_some_iff.1 h
  rw [completions, List.drop_eq_getElem_cons hlt, spacedSublists, List.map_append]
  congr 1
  simp only [hfits]
  split
  · simp [completions, Function.comp_def]
  · rfl

theorem remaining_of_turn? {walk next : SublistWalk} {yielded : Option (List Nat)}
    (h : walk.turn? = some (yielded, next)) :
    walk.remaining = yielded.toList ++ next.remaining := by
  obtain ⟨decided, chosen, rest, hpending, ⟨hplace, rfl, rfl⟩ | ⟨place, hplace, rfl, rfl⟩⟩ :=
    turn?_cases h
  · rw [remaining, hpending, List.flatMap_cons, completions_of_none hplace, remaining_pending]
    rfl
  · rw [remaining, hpending, List.flatMap_cons, completions_of_some hplace, remaining_pending,
      List.flatMap_append, List.flatMap_cons, Option.toList_none, List.nil_append,
      List.append_assoc]
    split <;> simp

/-- How far a walk is from its end: what one open choice counts for is more than what the two
that it may be replaced with count for together. -/
def work (walk : SublistWalk) : Nat :=
  (walk.pending.map fun choice => 3 ^ (walk.places.length - choice.decided)).sum

theorem work_lt_of_turn? {walk next : SublistWalk} {yielded : Option (List Nat)}
    (h : walk.turn? = some (yielded, next)) : next.work < walk.work := by
  obtain ⟨decided, chosen, rest, hpending, ⟨hplace, rfl, rfl⟩ | ⟨place, hplace, rfl, rfl⟩⟩ :=
    turn?_cases h
  · simp only [work, hpending, List.map_cons, List.sum_cons]
    have hpos : 0 < 3 ^ (walk.places.length - decided) := Nat.pow_pos (by omega)
    omega
  · obtain ⟨hlt, -⟩ := List.getElem?_eq_some_iff.1 hplace
    have hpow : 3 ^ (walk.places.length - decided) =
        3 * 3 ^ (walk.places.length - (decided + 1)) := by
      rw [← Nat.pow_succ']
      congr 1
      omega
    have hpos : 0 < 3 ^ (walk.places.length - (decided + 1)) := Nat.pow_pos (by omega)
    simp only [work, hpending, List.map_cons, List.sum_cons, hpow]
    split
    · simp only [List.singleton_append, List.map_cons, List.sum_cons]
      omega
    · simp only [List.nil_append, List.map_cons, List.sum_cons]
      omega

/-! ## The whole walk -/

theorem Exhausts.eq_remaining {walk : SublistWalk} {all : List (List Nat)}
    (h : walk.Exhausts all) : all = walk.remaining := by
  induction h with
  | finished h => rw [remaining, pending_of_turn?_eq_none h, List.flatMap_nil]
  | turn h _ ih => rw [remaining_of_turn? h, ih]

theorem exhausts_remaining (walk : SublistWalk) : walk.Exhausts walk.remaining := by
  induction hwork : walk.work using Nat.strong_induction_on generalizing walk with
  | _ work ih =>
      cases hturn : walk.turn? with
      | none =>
          rw [remaining, pending_of_turn?_eq_none hturn, List.flatMap_nil]
          exact .finished hturn
      | some result =>
          obtain ⟨yielded, next⟩ := result
          rw [remaining_of_turn? hturn]
          exact .turn hturn (ih _ (hwork ▸ work_lt_of_turn? hturn) next rfl)

/-- From its start a walk over ascending places comes to its end, and what it yields is what
undoing a rule chooses from: each sublist of the places whose neighbours are at least the width
apart, once and in ascending order, and nothing else. -/
theorem exhausts_start_iff {places : List Nat} (hplaces : places.Pairwise (· < ·))
    (width : Nat) :
    (∀ all, (start width places).Exhausts all ↔ all = spacedSublists width 0 places) ∧
      (spacedSublists width 0 places).Nodup ∧
      (∀ chosen, chosen ∈ spacedSublists width 0 places ↔
        chosen.Sublist places ∧
          chosen.IsChain fun earlier later => earlier + width ≤ later) ∧
      ∀ chosen ∈ spacedSublists width 0 places, chosen.Pairwise (· < ·) := by
  refine ⟨fun all => ⟨fun h => ?_, ?_⟩, nodup_spacedSublists (hplaces.imp Nat.ne_of_lt) width 0,
    fun _ => mem_spacedSublists_zero, fun chosen hchosen => ?_⟩
  · rw [h.eq_remaining, remaining_start]
  · rintro rfl
    rw [← remaining_start]
    exact exhausts_remaining _
  · exact hplaces.sublist (mem_spacedSublists_zero.1 hchosen).1

/-- Three occurrences of two tokens each, of which only the outer ones do not overlap. -/
theorem exhausts_start_iff_overlapping :
    [0, 1, 2].Pairwise (· < ·) ∧
      (start 2 [0, 1, 2]).Exhausts [[0, 2], [0], [1], [2], []] ∧
      [0, 1] ∉ spacedSublists 2 0 [0, 1, 2] := by
  have hplaces : [0, 1, 2].Pairwise (· < ·) := by decide
  obtain ⟨hwalk, -, hmem, -⟩ := exhausts_start_iff hplaces 2
  refine ⟨hplaces, (hwalk _).2 (by decide), fun h => ?_⟩
  exact absurd ((hmem _).1 h).2 (by decide)

end SublistWalk

end Diachrony
