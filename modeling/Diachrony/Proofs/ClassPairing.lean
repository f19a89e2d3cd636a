import Mathlib
import Diachrony.Proofs.CompiledRules

/-!
# The pairing of classes

A choice of one member for every class of the source is a list of places, one for each class.
`Pairing source target outcome` says what becomes of two sides in terms of these choices and of
the sizes of the classes alone, failures included, and `expandChanges` gives exactly that.
-/

namespace Diachrony.RuleText

/-! ## Choices as places -/

def classSizes (items : List Item) : List Nat :=
  (items.filterMap Item.members?).map List.length

/-- What a literal or a picked member adds to a side: the deletion mark and the empty option add
nothing. -/
def added : Option Token → List Token
  | none => []
  | some token => if token = nullMark then [] else [token]

/-- The tokens of a side whose classes are replaced by their members at the given places, the
first class by the one at the first place.  Places behind those of the classes are not looked
at; there are no tokens if a class has no member at its place. -/
def tokensAt? : List Item → List Nat → Option (List Token)
  | [], _ => some []
  | .literal token :: items, places => (tokensAt? items places).map (added (some token) ++ ·)
  | .oneOf _ :: _, [] => none
  | .oneOf members :: items, place :: places =>
      members[place]?.bind fun member => (tokensAt? items places).map (added member ++ ·)

/-- Whether a list of places picks a member of each of the classes of these sizes. -/
def Picks (sizes places : List Nat) : Prop :=
  List.Forall₂ (· < ·) places sizes

/-- The choices for classes of these sizes, each once, in lexicographic order: the place in the
last class changes fastest. -/
structure ListsPicks (sizes : List Nat) (choices : List (List Nat)) : Prop where
  sorted : choices.Pairwise (· < ·)
  mem_iff : ∀ places, places ∈ choices ↔ Picks sizes places

/-- What becomes of a source and a target whose classes are paired in order. -/
inductive Pairing [Limits] (source target : List Item) : Except Cause (List Change) → Prop
  | noSourceClass (hsource : classSizes source = []) (htarget : classSizes target ≠ []) :
      Pairing source target (.error .classTargetRequiresClassSource)
  | unpaired (hsource : classSizes source ≠ [])
      (hlonger : (classSizes source).length < (classSizes target).length) :
      Pairing source target
        (.error (.unpairedTargetClass (classSizes source).length (classSizes target).length))
  | mismatch {k sourceSize targetSize : Nat}
      (hlength : (classSizes target).length ≤ (classSizes source).length)
      (hsource : (classSizes source)[k]? = some sourceSize)
      (htarget : (classSizes target)[k]? = some targetSize) (hne : sourceSize ≠ targetSize)
      (hbefore : ∀ j < k, (classSizes source)[j]? = (classSizes target)[j]?) :
      Pairing source target (.error (.pairedClassArityMismatch sourceSize targetSize))
  | tooMany {k : Nat} (hpaired : classSizes target <+: classSizes source)
      (hmany : Limits.rulesPerStatement < (classSizes source).prod)
      (hbefore : ∀ j ≤ k, ((classSizes source).take j).prod ≤ Limits.rulesPerStatement)
      (hcount : Limits.rulesPerStatement < ((classSizes source).take (k + 1)).prod) :
      Pairing source target (.error (.expansionLimitExceeded ((classSizes source).take (k + 1)).prod
        Limits.rulesPerStatement))
  | emptyInput {places : List Nat} (hpaired : classSizes target <+: classSizes source)
      (hfew : (classSizes source).prod ≤ Limits.rulesPerStatement)
      (hplaces : Picks (classSizes source) places) (hempty : tokensAt? source places = some []) :
      Pairing source target (.error .emptyFrom)
  | changes {choices : List (List Nat)} {changes : List Change}
      (hpaired : classSizes target <+: classSizes source)
      (hfew : (classSizes source).prod ≤ Limits.rulesPerStatement)
      (hchoices : ListsPicks (classSizes source) choices)
      (hchanges : List.Forall₂ (fun places change => tokensAt? source places = some change.input ∧
        tokensAt? target places = some change.output) choices changes)
      (hinput : ∀ change ∈ changes, change.input ≠ []) :
      Pairing source target (.ok changes.eraseDups)

/-! ## The enumeration of choices -/

theorem mem_choicesOf_range_iff {sizes places : List Nat} :
    places ∈ choicesOf (sizes.map List.range) ↔ Picks sizes places := by
  induction sizes generalizing places with
  | nil => simp [choicesOf, Picks]
  | cons size rest ih =>
      simp only [List.map_cons, choicesOf, List.mem_flatMap, List.mem_map, List.mem_range, ih]
      rw [Picks, List.forall₂_cons_right_iff]
      constructor
      · rintro ⟨place, hplace, tail, htail, rfl⟩
        exact ⟨place, tail, hplace, htail, rfl⟩
      · rintro ⟨place, tail, hplace, htail, rfl⟩
        exact ⟨place, hplace, tail, htail, rfl⟩

theorem pairwise_choicesOf_range (sizes : List Nat) :
    (choicesOf (sizes.map List.range)).Pairwise (· < ·) := by
  induction sizes with
  | nil => simp [choicesOf]
  | cons size rest ih =>
      rw [List.map_cons, choicesOf, List.pairwise_flatMap]
      constructor
      · intro place _
        rw [List.pairwise_map]
        exact ih.imp fun hlt => List.cons_lt_cons_iff.2 (.inr ⟨rfl, hlt⟩)
      · refine List.pairwise_lt_range.imp fun hlt first hfirst second hsecond => ?_
        obtain ⟨tail, -, rfl⟩ := List.mem_map.1 hfirst
        obtain ⟨other, -, rfl⟩ := List.mem_map.1 hsecond
        exact List.cons_lt_cons_iff.2 (.inl hlt)

theorem listsPicks_choicesOf_range (sizes : List Nat) :
    ListsPicks sizes (choicesOf (sizes.map List.range)) :=
  ⟨pairwise_choicesOf_range sizes, fun _ => mem_choicesOf_range_iff⟩

theorem ListsPicks.eq {sizes : List Nat} {choices others : List (List Nat)}
    (h : ListsPicks sizes choices) (hothers : ListsPicks sizes others) : choices = others :=
  h.sorted.eq_of_mem_iff hothers.sorted fun places =>
    (h.mem_iff places).trans (hothers.mem_iff places).symm

theorem forall₂_choicesOf_cons {α β : Type} {related : α → β → Prop}
    {later all : List α → List β → Prop} {options : List α} {others : List β}
    {rest : List (List α)} {restOthers : List (List β)}
    (hoptions : List.Forall₂ related options others)
    (hrest : List.Forall₂ later (choicesOf rest) (choicesOf restOthers))
    (hcons : ∀ {a b tail other}, related a b → later tail other → all (a :: tail) (b :: other)) :
    List.Forall₂ all (choicesOf (options :: rest)) (choicesOf (others :: restOthers)) :=
  List.rel_flatMap hoptions fun _ _ hfirst =>
    List.rel_map (fun _ _ htail => hcons hfirst htail) hrest

/-! ## Members at places -/

/-- Whether these are the members of some classes at the given places, one for each class.
Places and members behind those of the classes do not matter. -/
inductive MembersAt : List (List (Option Token)) → List Nat → List (Option Token) → Prop
  | nil {places : List Nat} {members : List (Option Token)} : MembersAt [] places members
  | cons {options : List (Option Token)} {classes : List (List (Option Token))} {place : Nat}
      {places : List Nat} {member : Option Token} {members : List (Option Token)}
      (hmember : options[place]? = some member) (hrest : MembersAt classes places members) :
      MembersAt (options :: classes) (place :: places) (member :: members)

theorem realize_literal_cons (token : Token) (items : List Item) (picks : List (Option Token)) :
    realize (.literal token :: items) picks = added (some token) ++ realize items picks := by
  by_cases hmark : token = nullMark
  · simp [realize, added, hmark]
  · simp [realize, added, hmark]

theorem realize_oneOf_cons (members : List (Option Token)) (items : List Item)
    (pick : Option Token) (picks : List (Option Token)) :
    realize (.oneOf members :: items) (pick :: picks) = added pick ++ realize items picks := by
  cases pick with
  | none => rfl
  | some token =>
      by_cases hmark : token = nullMark
      · simp [realize, added, hmark]
      · simp [realize, added, hmark]

theorem MembersAt.tokensAt?_eq {items : List Item} {places : List Nat}
    {members : List (Option Token)} (h : MembersAt (items.filterMap Item.members?) places members) :
    tokensAt? items places = some (realize items members) := by
  induction items generalizing places members with
  | nil => simp [tokensAt?, realize]
  | cons item items ih =>
      cases item with
      | literal token => rw [tokensAt?, ih h, realize_literal_cons, Option.map_some]
      | oneOf options =>
          cases h with
          | cons hmember hrest =>
              rw [tokensAt?, hmember, Option.bind_some, ih hrest, realize_oneOf_cons,
                Option.map_some]

theorem forall₂_range_map (source : List (Option Token)) :
    List.Forall₂ (fun place (pick : Pick) => source[place]? = some pick.1)
      (List.range source.length) (source.map (·, none)) := by
  refine List.forall₂_iff_get.2 ⟨by simp, fun i hi _ => ?_⟩
  simp only [List.length_range] at hi
  simp [hi]

theorem forall₂_range_zip {source target : List (Option Token)}
    (hlength : source.length = target.length) :
    List.Forall₂ (fun place (pick : Pick) => source[place]? = some pick.1 ∧
      target[place]? = some pick.2) (List.range source.length) (source.zip target) := by
  refine List.forall₂_iff_get.2 ⟨by simp [hlength], fun i hi _ => ?_⟩
  simp only [List.length_range] at hi
  simp [hi, ← hlength]

theorem forall₂_choicesOf_classPicks {sources targets : List (List (Option Token))}
    (hpaired : targets.map List.length <+: sources.map List.length) :
    List.Forall₂ (fun places picks => MembersAt sources places (picks.map Prod.fst) ∧
        MembersAt targets places (picks.map Prod.snd))
      (choicesOf ((sources.map List.length).map List.range))
      (choicesOf (classPicks sources targets)) := by
  fun_induction classPicks sources targets with
  | case1 targets =>
      have htargets : targets = [] := by simpa using hpaired
      rw [htargets]
      exact .cons ⟨.nil, .nil⟩ .nil
  | case2 source sources ih =>
      exact forall₂_choicesOf_cons (forall₂_range_map source) (ih List.nil_prefix)
        fun hpick hrest => ⟨.cons hpick hrest.1, .nil⟩
  | case3 source sources target targets ih =>
      obtain ⟨hlength, hpaired⟩ := List.cons_prefix_cons.1 hpaired
      exact forall₂_choicesOf_cons (forall₂_range_zip hlength.symm) (ih hpaired)
        fun hpick hrest => ⟨.cons hpick.1 hrest.1, .cons hpick.2 hrest.2⟩

/-- The changes of two sides whose classes are paired, before duplicates are dropped. -/
def pickedChanges (source target : List Item) : List Change :=
  (choicesOf (classPicks (source.filterMap Item.members?) (target.filterMap Item.members?))).map
    fun picks => ⟨realize source (picks.map Prod.fst), realize target (picks.map Prod.snd)⟩

theorem forall₂_pickedChanges {source target : List Item}
    (hpaired : classSizes target <+: classSizes source) :
    List.Forall₂ (fun places change => tokensAt? source places = some change.input ∧
        tokensAt? target places = some change.output)
      (choicesOf ((classSizes source).map List.range)) (pickedChanges source target) :=
  List.forall₂_map_right_iff.2 <| (forall₂_choicesOf_classPicks hpaired).imp
    fun _ _ hpicks => ⟨hpicks.1.tokensAt?_eq, hpicks.2.tokensAt?_eq⟩

/-! ## The limit on the number of choices -/

theorem take_prod_le {sizes : List Nat} (hpos : ∀ size ∈ sizes, 0 < size) (k : Nat) :
    (sizes.take k).prod ≤ sizes.prod := by
  rw [← List.prod_take_mul_prod_drop sizes k]
  exact Nat.le_mul_of_pos_right _
    (List.prod_pos fun size hsize => hpos size (List.mem_of_mem_drop hsize))

def productFrom [Limits] (product : Nat) (sizes : List Nat) : Except Cause Nat :=
  sizes.foldlM (fun product size =>
    let count := product * size
    if count > Limits.rulesPerStatement then
      .error (.expansionLimitExceeded count Limits.rulesPerStatement)
    else .ok count) product

theorem productFrom_cons [Limits] (product size : Nat) (sizes : List Nat) :
    productFrom product (size :: sizes) =
      if Limits.rulesPerStatement < product * size then
        .error (.expansionLimitExceeded (product * size) Limits.rulesPerStatement)
      else productFrom (product * size) sizes := by
  rw [productFrom, List.foldlM_cons]
  split
  · rename_i hmany
    simp only [gt_iff_lt, hmany, if_true]
    rfl
  · rename_i hfew
    simp only [gt_iff_lt, hfew, if_false]
    rfl

theorem productFrom_eq_ok [Limits] {product : Nat} {sizes : List Nat}
    (hfew : ∀ k, product * (sizes.take k).prod ≤ Limits.rulesPerStatement) :
    productFrom product sizes = .ok (product * sizes.prod) := by
  induction sizes generalizing product with
  | nil =>
      rw [List.prod_nil, Nat.mul_one]
      rfl
  | cons size sizes ih =>
      have hfirst := hfew 1
      rw [List.take_succ_cons, List.take_zero, List.prod_singleton] at hfirst
      rw [productFrom_cons, if_neg (by omega), ih, List.prod_cons, Nat.mul_assoc]
      intro k
      simpa [Nat.mul_assoc] using hfew (k + 1)

theorem productFrom_eq_error [Limits] {product k : Nat} {sizes : List Nat}
    (hbefore : ∀ j ≤ k, product * (sizes.take j).prod ≤ Limits.rulesPerStatement)
    (hcount : Limits.rulesPerStatement < product * (sizes.take (k + 1)).prod) :
    productFrom product sizes = .error (.expansionLimitExceeded
      (product * (sizes.take (k + 1)).prod) Limits.rulesPerStatement) := by
  induction sizes generalizing product k with
  | nil =>
      have hzero := hbefore 0 (Nat.zero_le k)
      simp only [List.take_nil] at hzero hcount
      omega
  | cons size sizes ih =>
      rw [productFrom_cons]
      cases k with
      | zero =>
          simp only [zero_add, List.take_succ_cons, List.take_zero, List.prod_singleton] at hcount ⊢
          rw [if_pos hcount]
      | succ k =>
          have hfirst := hbefore 1 (by omega)
          rw [List.take_succ_cons, List.take_zero, List.prod_singleton] at hfirst
          rw [List.take_succ_cons, List.prod_cons, ← Nat.mul_assoc] at hcount ⊢
          rw [if_neg (by omega)]
          refine ih (fun j hj => ?_) hcount
          simpa [Nat.mul_assoc] using hbefore (j + 1) (by omega)

theorem checkedProduct_eq_ok [Limits] {sizes : List Nat} (hpos : ∀ size ∈ sizes, 0 < size)
    (hfew : sizes.prod ≤ Limits.rulesPerStatement) : checkedProduct sizes = .ok sizes.prod := by
  have hok : productFrom 1 sizes = .ok (1 * sizes.prod) := by
    refine productFrom_eq_ok fun k => ?_
    rw [Nat.one_mul]
    exact (take_prod_le hpos k).trans hfew
  rwa [Nat.one_mul] at hok

theorem checkedProduct_eq_error [Limits] {k : Nat} {sizes : List Nat}
    (hbefore : ∀ j ≤ k, (sizes.take j).prod ≤ Limits.rulesPerStatement)
    (hcount : Limits.rulesPerStatement < (sizes.take (k + 1)).prod) :
    checkedProduct sizes = .error (.expansionLimitExceeded (sizes.take (k + 1)).prod
      Limits.rulesPerStatement) := by
  have herror : productFrom 1 sizes = .error (.expansionLimitExceeded
      (1 * (sizes.take (k + 1)).prod) Limits.rulesPerStatement) :=
    productFrom_eq_error (by simpa using hbefore) (by simpa using hcount)
  rwa [Nat.one_mul] at herror

/-! ## What becomes of two sides -/

theorem pairingCause?_eq_none {sources targets : List (List (Option Token))}
    (hpaired : targets.map List.length <+: sources.map List.length) :
    pairingCause? sources targets = none := by
  have hlength : targets.length ≤ sources.length := by simpa using hpaired.length_le
  rw [pairingCause?, if_neg, if_neg (by omega), List.find?_eq_none.2]
  · rfl
  · intro pair hpair
    obtain ⟨i, hi⟩ := List.getElem?_of_mem hpair
    obtain ⟨hsource, htarget⟩ := List.getElem?_zip_eq_some.1 hi
    obtain ⟨hlt, hget⟩ := List.getElem?_eq_some_iff.1 htarget
    have hsame := List.prefix_iff_getElem?.1 hpaired i (by simpa using hlt)
    simp only [List.getElem_map, List.getElem?_map, hsource, Option.map_some, Option.some.injEq,
      hget] at hsame
    simp [hsame]
  · intro hboth
    simp only [Bool.and_eq_true, Bool.not_eq_true', List.isEmpty_iff,
      List.isEmpty_eq_false_iff] at hboth
    rw [hboth.2] at hlength
    exact hboth.1 (List.eq_nil_of_length_eq_zero (by simpa using hlength))

theorem pairingCause?_eq_mismatch {sources targets : List (List (Option Token))}
    {k sourceSize targetSize : Nat} (hlength : targets.length ≤ sources.length)
    (hsource : (sources.map List.length)[k]? = some sourceSize)
    (htarget : (targets.map List.length)[k]? = some targetSize) (hne : sourceSize ≠ targetSize)
    (hbefore : ∀ j < k, (sources.map List.length)[j]? = (targets.map List.length)[j]?) :
    pairingCause? sources targets = some (.pairedClassArityMismatch sourceSize targetSize) := by
  rw [List.getElem?_map, Option.map_eq_some_iff] at hsource htarget
  obtain ⟨first, hfirst, rfl⟩ := hsource
  obtain ⟨second, hsecond, rfl⟩ := htarget
  have hzip : (sources.zip targets)[k]? = some (first, second) :=
    List.getElem?_zip_eq_some.2 ⟨hfirst, hsecond⟩
  obtain ⟨hk, hpair⟩ := List.getElem?_eq_some_iff.1 hzip
  have hsources : sources ≠ [] := by
    rintro rfl
    simp at hfirst
  rw [pairingCause?, if_neg (by simp [hsources]), if_neg (by omega),
    List.find?_eq_some_iff_getElem.2 ⟨?_, k, hk, hpair, fun j hj => ?_⟩]
  · rfl
  · simpa using hne
  · obtain ⟨hjsource, hjtarget⟩ :=
      List.getElem?_zip_eq_some.1 (List.getElem?_eq_getElem (hj.trans hk))
    have hsame := hbefore j hj
    rw [List.getElem?_map, List.getElem?_map, hjsource, hjtarget] at hsame
    simpa using hsame

section ExpandChanges

variable {source target : List Item}

theorem classSizes_eq_nil_iff {items : List Item} :
    classSizes items = [] ↔ items.filterMap Item.members? = [] := List.map_eq_nil_iff

theorem length_classSizes (items : List Item) :
    (classSizes items).length = (items.filterMap Item.members?).length := List.length_map _

theorem classSizes_pos {text : Text} (h : Reads text source) :
    ∀ size ∈ classSizes source, 0 < size := by
  intro size hsize
  obtain ⟨members, hmem, rfl⟩ := List.mem_map.1 hsize
  obtain ⟨item, hitem, hsome⟩ := List.mem_filterMap.1 hmem
  cases item with
  | literal token => cases hsome
  | oneOf others =>
      cases hsome
      exact List.length_pos_of_ne_nil (h.members_ne_nil hitem)

theorem expandChanges_eq_error [Limits] {cause : Cause} (hcause : pairingCause?
    (source.filterMap Item.members?) (target.filterMap Item.members?) = some cause) :
    expandChanges source target = .error cause := by
  simp only [expandChanges, hcause]

theorem expandChanges_of_paired [Limits] (hpaired : classSizes target <+: classSizes source) :
    expandChanges source target = (checkedProduct (classSizes source) >>= fun _ =>
      if (pickedChanges source target).any (·.input.isEmpty) then .error .emptyFrom
      else .ok (distinct (pickedChanges source target))) := by
  simp only [expandChanges, pairingCause?_eq_none hpaired]
  rfl

theorem Pairing.expandChanges_eq [Limits] {outcome : Except Cause (List Change)}
    (hpos : ∀ size ∈ classSizes source, 0 < size) (h : Pairing source target outcome) :
    expandChanges source target = outcome := by
  cases h with
  | noSourceClass hsource htarget =>
      rw [Ne, classSizes_eq_nil_iff] at htarget
      refine expandChanges_eq_error (if_pos ?_)
      simpa [classSizes_eq_nil_iff.1 hsource] using htarget
  | unpaired hsource hlonger =>
      rw [Ne, classSizes_eq_nil_iff] at hsource
      rw [length_classSizes, length_classSizes] at hlonger ⊢
      refine expandChanges_eq_error ?_
      rw [pairingCause?, if_neg (by simp [hsource]), if_pos hlonger]
  | mismatch hlength hsource htarget hne hbefore =>
      rw [length_classSizes, length_classSizes] at hlength
      exact expandChanges_eq_error (pairingCause?_eq_mismatch hlength hsource htarget hne hbefore)
  | tooMany hpaired hmany hbefore hcount =>
      rw [expandChanges_of_paired hpaired, checkedProduct_eq_error hbefore hcount]
      rfl
  | emptyInput hpaired hfew hplaces hempty =>
      obtain ⟨change, hchange, hinput, -⟩ :=
        exists_right_of_forall₂ (forall₂_pickedChanges hpaired) (mem_choicesOf_range_iff.2 hplaces)
      have hnone : change.input = [] := Option.some.inj (hinput.symm.trans hempty)
      rw [expandChanges_of_paired hpaired, checkedProduct_eq_ok hpos hfew, ok_bind, if_pos]
      exact List.any_eq_true.2 ⟨change, hchange, by simp [hnone]⟩
  | @changes choices changes hpaired hfew hchoices hchanges hinput =>
      have hsame : changes = pickedChanges source target := by
        rw [hchoices.eq (listsPicks_choicesOf_range _)] at hchanges
        refine Relator.RightUnique.forall₂ ?_ hchanges (forall₂_pickedChanges hpaired)
        rintro places ⟨input, output⟩ ⟨otherInput, otherOutput⟩ ⟨hin, hout⟩ ⟨hotherIn, hotherOut⟩
        cases hin.symm.trans hotherIn
        cases hout.symm.trans hotherOut
        rfl
      rw [expandChanges_of_paired hpaired, checkedProduct_eq_ok hpos hfew, ok_bind, if_neg,
        distinct_eq_eraseDups, hsame]
      simpa [← hsame, List.isEmpty_iff] using hinput

theorem exists_first_difference {sizes others : List Nat} (hlength : others.length ≤ sizes.length)
    (hnot : ¬ others <+: sizes) :
    ∃ k size other : Nat, sizes[k]? = some size ∧ others[k]? = some other ∧ size ≠ other ∧
      ∀ j < k, sizes[j]? = others[j]? := by
  induction others generalizing sizes with
  | nil => exact absurd List.nil_prefix hnot
  | cons other others ih =>
      cases sizes with
      | nil => simp at hlength
      | cons size sizes =>
          by_cases hsame : size = other
          · have hrest : ¬ others <+: sizes := fun hprefix =>
              hnot (List.cons_prefix_cons.2 ⟨hsame.symm, hprefix⟩)
            obtain ⟨k, first, second, hfirst, hsecond, hne, hbefore⟩ :=
              ih (by simpa using hlength) hrest
            refine ⟨k + 1, first, second, by simpa using hfirst, by simpa using hsecond, hne, ?_⟩
            intro j hj
            cases j with
            | zero => simp [hsame]
            | succ j => simpa using hbefore j (by omega)
          · exact ⟨0, size, other, rfl, rfl, hsame, fun j hj => absurd hj (Nat.not_lt_zero j)⟩

theorem exists_first_excess [Limits] {sizes : List Nat}
    (hmany : Limits.rulesPerStatement < sizes.prod) :
    ∃ k, (∀ j ≤ k, (sizes.take j).prod ≤ Limits.rulesPerStatement) ∧
      Limits.rulesPerStatement < (sizes.take (k + 1)).prod := by
  have hall : ∃ n, Limits.rulesPerStatement < (sizes.take n).prod :=
    ⟨sizes.length, by rwa [List.take_length]⟩
  have hspec := Nat.find_spec hall
  obtain ⟨k, hk⟩ : ∃ k, Nat.find hall = k + 1 := by
    refine Nat.exists_eq_succ_of_ne_zero fun hzero => ?_
    rw [hzero, List.take_zero, List.prod_nil] at hspec
    exact absurd hspec (Nat.not_lt.2 Limits.rulesPerStatement_pos)
  rw [hk] at hspec
  exact ⟨k, fun j hj => not_lt.1 (Nat.find_min hall (by omega)), hspec⟩

theorem exists_pairing [Limits] (source target : List Item) :
    ∃ outcome, Pairing source target outcome := by
  rcases lt_or_ge (classSizes source).length (classSizes target).length with hlonger | hlength
  · by_cases hsource : classSizes source = []
    · refine ⟨_, .noSourceClass hsource fun htarget => ?_⟩
      simp [htarget] at hlonger
    · exact ⟨_, .unpaired hsource hlonger⟩
  by_cases hpaired : classSizes target <+: classSizes source
  swap
  · obtain ⟨k, size, other, hsource, htarget, hne, hbefore⟩ :=
      exists_first_difference hlength hpaired
    exact ⟨_, .mismatch hlength hsource htarget hne hbefore⟩
  rcases lt_or_ge Limits.rulesPerStatement (classSizes source).prod with hmany | hfew
  · obtain ⟨k, hbefore, hcount⟩ := exists_first_excess hmany
    exact ⟨_, .tooMany hpaired hmany hbefore hcount⟩
  by_cases hinput : ∀ change ∈ pickedChanges source target, change.input ≠ []
  · exact ⟨_, .changes hpaired hfew (listsPicks_choicesOf_range _) (forall₂_pickedChanges hpaired)
      hinput⟩
  · simp only [not_forall, not_not] at hinput
    obtain ⟨change, hchange, hnone⟩ := hinput
    obtain ⟨places, hplaces, hin, -⟩ :=
      exists_left_of_forall₂ (forall₂_pickedChanges hpaired) hchange
    exact ⟨_, .emptyInput hpaired hfew (mem_choicesOf_range_iff.1 hplaces) (hnone ▸ hin)⟩

/-- A side whose classes all have members gives at least one change: the first members can be
picked. -/
theorem ne_nil_of_expandChanges [Limits] {text : Text} (hread : Reads text source)
    {changes : List Change} (h : expandChanges source target = .ok changes) : changes ≠ [] := by
  have hpos := classSizes_pos hread
  obtain ⟨outcome, hpairing⟩ := exists_pairing source target
  obtain rfl := (hpairing.expandChanges_eq hpos).symm.trans h
  cases hpairing with
  | changes hpaired hfew hchoices hchanges hinput =>
      have hplaces : Picks (classSizes source) ((classSizes source).map fun _ => 0) := by
        rw [Picks, List.forall₂_map_left_iff, List.forall₂_same]
        exact hpos
      obtain ⟨change, hchange, -⟩ :=
        exists_right_of_forall₂ hchanges ((hchoices.mem_iff _).2 hplaces)
      exact List.ne_nil_of_mem (List.mem_eraseDups.2 hchange)

/-- Class pairing means what it says: the outcome of the two sides of a rule is the one their
pairing has, failures and their precedence included, and every choice of the source classes
picks members that are there. -/
theorem expandChanges_eq_iff_pairing [Limits] {text : Text} (h : parseItems text = .ok source) :
    (∀ outcome, expandChanges source target = outcome ↔ Pairing source target outcome) ∧
      (classSizes target <+: classSizes source → ∀ places, Picks (classSizes source) places →
        ∃ input output, tokensAt? source places = some input ∧
          tokensAt? target places = some output) := by
  have hpos := classSizes_pos (parseItems_eq_ok_iff.1 h)
  constructor
  · intro outcome
    obtain ⟨actual, hactual⟩ := exists_pairing source target
    constructor
    · rintro rfl
      rwa [hactual.expandChanges_eq hpos]
    · exact fun hpairing => hpairing.expandChanges_eq hpos
  · intro hpaired places hplaces
    obtain ⟨change, -, hinput, houtput⟩ :=
      exists_right_of_forall₂ (forall₂_pickedChanges hpaired) (mem_choicesOf_range_iff.2 hplaces)
    exact ⟨change.input, change.output, hinput, houtput⟩

/-- The stops of the first class follow into the target; the vowel of the second one, which may
be missing, ranges on its own. -/
theorem expandChanges_eq_iff_pairing_stops :
    parseItems "[p b] [a _]".toList =
        .ok [.oneOf [some "p", some "b"], .oneOf [some "a", none]] ∧
      Pairing [.oneOf [some "p", some "b"], .oneOf [some "a", none]]
        [.literal "x", .oneOf [some "f", none]]
        (.ok [⟨["p", "a"], ["x", "f"]⟩, ⟨["p"], ["x", "f"]⟩, ⟨["b", "a"], ["x"]⟩,
          ⟨["b"], ["x"]⟩]) ∧
      ∃ input output,
        tokensAt? [.oneOf [some "p", some "b"], .oneOf [some "a", none]] [1, 0] = some input ∧
          tokensAt? [.literal "x", .oneOf [some "f", none]] [1, 0] = some output := by
  have hread : parseItems "[p b] [a _]".toList =
      .ok [.oneOf [some "p", some "b"], .oneOf [some "a", none]] := by cbv
  have hexpand : expandChanges [.oneOf [some "p", some "b"], .oneOf [some "a", none]]
      [.literal "x", .oneOf [some "f", none]] =
        .ok [⟨["p", "a"], ["x", "f"]⟩, ⟨["p"], ["x", "f"]⟩, ⟨["b", "a"], ["x"]⟩,
          ⟨["b"], ["x"]⟩] := by cbv
  obtain ⟨hpairing, hlookup⟩ := expandChanges_eq_iff_pairing hread
  have hplaces : Picks [2, 2] [1, 0] := .cons (by decide) (.cons (by decide) .nil)
  exact ⟨hread, (hpairing _).1 hexpand, hlookup (by decide) [1, 0] hplaces⟩

end ExpandChanges

end Diachrony.RuleText
