import Std.Data.HashSet

/-!
# Distinct elements in order of first occurrence

Expanding a statement can produce the same rule, context or pattern more than once; the
first occurrence decides its place.  The collector keeps a hash set beside the list, and
`distinct_eq_eraseDups` says that the result is the plain quadratic one.
-/

namespace Diachrony

/-- Elements collected so far: the latest first, with the set of all of them. -/
structure Collector (α : Type) [BEq α] [Hashable α] where
  latestFirst : List α
  seen : Std.HashSet α

namespace Collector

variable {α : Type} [BEq α] [Hashable α]

def empty : Collector α :=
  ⟨[], ∅⟩

def push (collector : Collector α) (a : α) : Collector α :=
  if collector.seen.contains a then collector
  else ⟨a :: collector.latestFirst, collector.seen.insert a⟩

def pushAll (collector : Collector α) (elements : List α) : Collector α :=
  elements.foldl push collector

def size (collector : Collector α) : Nat :=
  collector.seen.size

def toList (collector : Collector α) : List α :=
  collector.latestFirst.reverse

end Collector

/-- The elements of a list, each once, in order of first occurrence. -/
def distinct {α : Type} [BEq α] [Hashable α] (elements : List α) : List α :=
  ((Collector.empty : Collector α).pushAll elements).toList

section Lawful

variable {α : Type} [BEq α] [LawfulBEq α] [Hashable α]

theorem Collector.pushAll_toList (elements : List α) (collector : Collector α)
    (agree : ∀ a, collector.seen.contains a = collector.latestFirst.contains a) :
    (collector.pushAll elements).toList =
      collector.toList ++
        (elements.filter fun a => !collector.latestFirst.contains a).eraseDups := by
  induction elements generalizing collector with
  | nil => simp [pushAll, toList]
  | cons a rest ih =>
      by_cases ha : collector.latestFirst.contains a = true
      · have hpush : collector.push a = collector := by rw [push, agree a, if_pos ha]
        have := ih collector agree
        simp only [pushAll, List.foldl_cons, hpush] at this ⊢
        rw [this, List.filter_cons_of_neg (by simp only [ha]; decide)]
      · have hfalse : collector.latestFirst.contains a = false := by simpa using ha
        have hpush : collector.push a =
            ⟨a :: collector.latestFirst, collector.seen.insert a⟩ := by
          rw [push, agree a, if_neg ha]
        have hagree : ∀ b, (collector.seen.insert a).contains b =
            (a :: collector.latestFirst).contains b := by
          intro b
          rw [Std.HashSet.contains_insert, List.contains_cons, agree b, BEq.comm]
        have := ih ⟨a :: collector.latestFirst, collector.seen.insert a⟩ hagree
        simp only [pushAll, List.foldl_cons, hpush] at this ⊢
        rw [this, List.filter_cons_of_pos (by simp only [hfalse]; decide), List.eraseDups_cons,
          List.filter_filter]
        simp only [toList, List.reverse_cons, List.append_assoc, List.singleton_append]
        congr 3
        refine List.filter_congr fun b _ => ?_
        simp only [List.contains_cons, Bool.not_or]

/-- Collecting with a hash set keeps exactly the first occurrences. -/
theorem distinct_eq_eraseDups (elements : List α) : distinct elements = elements.eraseDups := by
  have := Collector.pushAll_toList elements (Collector.empty : Collector α) (by
    intro a
    simp [Collector.empty])
  rw [List.filter_eq_self.2 (by simp [Collector.empty])] at this
  simpa [distinct, Collector.empty, Collector.toList] using this

/-- An element behind a list counts only if it is new. -/
theorem distinct_concat (elements : List α) (a : α) :
    distinct (elements ++ [a]) =
      if a ∈ elements then distinct elements else distinct elements ++ [a] := by
  rw [distinct_eq_eraseDups, distinct_eq_eraseDups, List.eraseDups_append, List.removeAll]
  by_cases hmem : a ∈ elements
  · simp [hmem]
  · simp [hmem, List.eraseDups_cons]

theorem mem_distinct {a : α} {elements : List α} : a ∈ distinct elements ↔ a ∈ elements := by
  rw [distinct_eq_eraseDups, List.mem_eraseDups]

omit [Hashable α] in
theorem eraseDups_nodup (elements : List α) : elements.eraseDups.Nodup := by
  match elements with
  | [] => simp
  | a :: rest =>
      rw [List.eraseDups_cons, List.nodup_cons]
      refine ⟨?_, eraseDups_nodup _⟩
      simp [List.mem_eraseDups]
termination_by elements.length
decreasing_by
  have := List.length_filter_le (fun b => !b == a) rest
  simp only [List.length_cons]
  omega

theorem distinct_nodup (elements : List α) : (distinct elements).Nodup := by
  rw [distinct_eq_eraseDups]
  exact eraseDups_nodup elements

end Lawful

end Diachrony
