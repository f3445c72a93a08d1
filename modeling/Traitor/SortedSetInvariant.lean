import Traitor.Lib.Windows
import Traitor.SkipListShape

namespace Traitor

open Lib.SkipChain Lib.Windows

namespace SkipList

variable {σ μ : Type} [LinearOrder σ] [LinearOrder μ]

omit [LinearOrder σ] [LinearOrder μ] in
theorem splits_of_forall (p : Addr → Bool) {front back : List Addr}
    (hfront : ∀ a ∈ front, p a = true) (hback : ∀ b ∈ back, p b = false) :
    Splits (fun _ a => p a) (header :: front) back := by
  intro pre b post he hne
  obtain ⟨c, pre, rfl⟩ := List.exists_cons_of_ne_nil hne
  simp only [List.cons_append, List.cons.injEq] at he
  obtain ⟨-, he⟩ := he
  simp only [List.length_cons, Nat.add_lt_add_iff_right]
  rcases List.append_eq_append_iff.mp he with ⟨mid, rfl, rfl⟩ | ⟨mid, rfl, hmid⟩
  · have hb := hback b (by simp)
    simp only [hb, List.length_append]
    simp
  · cases mid with
    | nil =>
        rw [List.nil_append] at hmid
        have hb := hback b (by simp [← hmid])
        simp [hb]
    | cons c mid =>
        obtain ⟨rfl, -⟩ := List.cons.inj hmid
        simp [hfront b (by simp)]

omit [LinearOrder σ] [LinearOrder μ] in
def Chain (s : SkipList σ μ) (i : Nat) : Addr → List Addr → Prop
  | a, [] => s.forward a i = none
  | a, b :: nodes => s.forward a i = some b ∧ Chain s i b nodes

omit [LinearOrder σ] [LinearOrder μ] in
theorem chain_of_linked {s : SkipList σ μ} {i : Nat} {a : Addr} {nodes : List Addr}
    (h : Linked (tall s i) (linkAt s i) (a :: nodes)) (ha : tall s i a = true) :
    Chain s i a (nodes.filter (tall s i)) := by
  have hforward : s.forward a i = (reach (tall s i) nodes).1 := congrArg Prod.fst (h.1 ha)
  induction hn : nodes.length using Nat.strongRecOn generalizing a nodes with
  | _ n ih =>
      rcases exists_reach (tall s i) nodes with hnone | ⟨l₁, b, l₂, rfl, hb, hshort⟩
      · have hnil : nodes.filter (tall s i) = [] :=
          List.filter_eq_nil_iff.mpr fun b hb => by simp [hnone b hb]
        rw [hnil]
        exact hforward.trans (by rw [reach_none _ hnone])
      · have hfilter : (l₁ ++ b :: l₂).filter (tall s i) = b :: l₂.filter (tall s i) := by
          have hnil : l₁.filter (tall s i) = [] :=
            List.filter_eq_nil_iff.mpr fun c hc => by simp [hshort c hc]
          rw [List.filter_append, hnil, List.nil_append, List.filter_cons_of_pos hb]
        have hrest : Linked (tall s i) (linkAt s i) (b :: l₂) := linked_drop h.2
        rw [hfilter]
        refine ⟨hforward.trans (by rw [reach_append_some _ hshort hb]), ?_⟩
        refine ih l₂.length ?_ hrest hb (congrArg Prod.fst (hrest.1 hb)) rfl
        rw [← hn, List.length_append, List.length_cons]
        omega

section

variable {s : SkipList σ μ} {nodes : List Addr}

theorem Shape.chain_zero (h : Shape s nodes) : Chain s 0 header nodes := by
  have hchain : Chain s 0 header (nodes.filter (tall s 0)) := by
    apply chain_of_linked (h.links 0 h.level.1)
    simp [tall, h.head, maxLevel]
  have hall : nodes.filter (tall s 0) = nodes := by
    apply List.filter_eq_self.mpr
    intro a ha
    simpa [tall] using Nat.lt_of_succ_le (h.heights a ha).1
  rwa [hall] at hchain

theorem Shape.nodes_eq (h : Shape s nodes) : s.nodes = nodes := by
  rw [SkipList.nodes, h.length, Int.toNat_natCast]
  have hwalk (a : Addr) (nodes : List Addr) (hc : Chain s 0 a nodes) :
      s.chain nodes.length (s.forward a 0) = nodes := by
    induction nodes generalizing a with
    | nil => rfl
    | cons b nodes ih =>
        rw [hc.1, List.length_cons, SkipList.chain, ih b hc.2]
  exact hwalk header nodes h.chain_zero

theorem Shape.first_eq (h : Shape s nodes) : s.forward header 0 = nodes.head? := by
  have hchain := h.chain_zero
  cases nodes with
  | nil => exact hchain
  | cons a nodes => exact hchain.1

theorem Shape.tail_eq (h : Shape s nodes) : s.tail = nodes.getLast? := by
  have hbacked : Backed s.backward s.tail none (nodes ++ []) := by
    rw [List.append_nil]
    exact h.backed
  rw [← lastOr_none]
  exact backed_drop hbacked

theorem precedes_mono (h : Shape s nodes) (member : μ) (score : σ) :
    nodes.Pairwise fun a b => precedes s member score b = true → precedes s member score a = true := by
  refine h.sorted.imp fun {a b} hab hb => ?_
  simp only [precedes, Bool.or_eq_true, Bool.and_eq_true, decide_eq_true_eq] at hb ⊢
  exact lex_trans hab (hb.imp id fun he => ⟨he.1, he.2.le⟩)

/-- The new node comes between those in front of it and the others. -/
theorem Shape.insert_split {front back : List Addr} (h : Shape s (front ++ back)) {member : μ} {score : σ}
    (hfront : ∀ a ∈ front, precedes s member score a = true)
    (hback : ∀ b ∈ back, precedes s member score b = false)
    (hfree : ∀ a ∈ front ++ back, ¬ (s.score a = score ∧ s.member a = member)) {level : Nat}
    (hpos : 1 ≤ level) (hlevel : level ≤ maxLevel) :
    ∃ update rank, insert s member score level = some (SkipList.link s member score level update rank) ∧
      Shape (SkipList.link s member score level update rank) (front ++ s.fresh :: back) := by
  obtain ⟨found, hs, hf⟩ := h.search (splits_of_forall _ hfront hback)
  refine ⟨fun i => (found i).1, fun i => (found i).2, ?_, h.link hf hpos hlevel ?_ ?_⟩
  · simp only [SkipList.insert, hs, Option.bind_eq_bind, Option.bind_some]
    rw [if_neg (by omega)]
  · intro a ha
    simpa [precedes] using hfront a ha
  · intro b hb
    have hnot := hback b hb
    simp only [precedes, Bool.or_eq_false_iff, Bool.and_eq_false_iff, decide_eq_false_iff_not,
      not_lt] at hnot
    rcases lt_or_eq_of_le hnot.1 with hlt | heq
    · exact Or.inl hlt
    · have hm : member ≤ s.member b := hnot.2.resolve_left (fun hne => hne heq.symm)
      have hne : member ≠ s.member b := fun he => hfree b (by simp [hb]) ⟨heq.symm, he.symm⟩
      exact Or.inr ⟨heq, lt_of_le_of_ne hm hne⟩

theorem Shape.insert (h : Shape s nodes) {member : μ} {score : σ}
    (hfree : ∀ a ∈ nodes, ¬ (s.score a = score ∧ s.member a = member)) {level : Nat}
    (hpos : 1 ≤ level) (hlevel : level ≤ maxLevel) :
    ∃ s' nodes', insert s member score level = some s' ∧ Shape s' nodes' ∧
      (∀ a, a ∈ nodes' ↔ a = s.fresh ∨ a ∈ nodes) ∧
      s'.member = Function.update s.member s.fresh member ∧
      s'.score = Function.update s.score s.fresh score := by
  obtain ⟨front, back, rfl, hfront, hback⟩ := exists_split _ (precedes_mono h member score)
  obtain ⟨update, rank, hi, hshape⟩ := h.insert_split hfront hback hfree hpos hlevel
  refine ⟨_, front ++ s.fresh :: back, hi, hshape, fun a => ?_, rfl, rfl⟩
  simp only [List.mem_append, List.mem_cons]
  tauto

/-- The node of a member and score is taken away. -/
theorem Shape.remove_split {front back : List Addr} {x : Addr} (h : Shape s (front ++ x :: back)) :
    ∃ update, remove s (s.member x) (s.score x) = some (SkipList.unlink s x update, true) ∧
      Shape (SkipList.unlink s x update) (front ++ back) := by
  have hmono := precedes_mono h (s.member x) (s.score x)
  have hself : precedes s (s.member x) (s.score x) x = false := by simp [precedes]
  have hfront : ∀ a ∈ front, precedes s (s.member x) (s.score x) a = true := by
    intro a ha
    have hbefore := (List.pairwise_append.mp h.sorted).2.2 a ha x List.mem_cons_self
    simpa [precedes, Before] using hbefore
  have hback : ∀ b ∈ x :: back, precedes s (s.member x) (s.score x) b = false := by
    intro b hb
    rcases List.mem_cons.mp hb with rfl | hb
    · exact hself
    · apply Bool.eq_false_iff.mpr
      intro hp
      have hbehind := (List.pairwise_cons.mp (List.pairwise_append.mp hmono).2.1).1 b hb hp
      rw [hself] at hbehind
      cases hbehind
  obtain ⟨found, hs, hf⟩ := h.search (splits_of_forall _ hfront hback)
  obtain ⟨-, -, hnext⟩ := hf.zero h
  refine ⟨fun i => (found i).1, ?_, h.unlink hf.preds⟩
  simp [SkipList.remove, hs, hnext, removeNode, h.removable hf.preds]

theorem Shape.remove (h : Shape s nodes) {x : Addr} (hx : x ∈ nodes) :
    ∃ s' nodes', remove s (s.member x) (s.score x) = some (s', true) ∧ Shape s' nodes' ∧
      (∀ a, a ∈ nodes' ↔ a ∈ nodes ∧ a ≠ x) ∧ s'.member = s.member ∧ s'.score = s.score := by
  obtain ⟨front, back, rfl⟩ := List.append_of_mem hx
  obtain ⟨update, hr, hshape⟩ := h.remove_split
  obtain ⟨-, hxf, hxb, -⟩ := h.not_mem
  refine ⟨_, front ++ back, hr, hshape, fun a => ?_, rfl, rfl⟩
  simp only [List.mem_append, List.mem_cons]
  constructor
  · rintro (ha | ha)
    · exact ⟨Or.inl ha, fun he => hxf (he ▸ ha)⟩
    · exact ⟨Or.inr (Or.inr ha), fun he => hxb (he ▸ ha)⟩
  · rintro ⟨ha | rfl | ha, hne⟩
    · exact Or.inl ha
    · exact absurd rfl hne
    · exact Or.inr ha

/-- A range removal takes away nodes in a row and answers them in order. -/
def RemovesRow (s : SkipList σ μ) (nodes : List Addr)
    (result : Option (SkipList σ μ × List (μ × σ))) : Prop :=
  ∃ s' front row back, nodes = front ++ (row ++ back) ∧
    result = some (s', row.map fun a => (s.member a, s.score a)) ∧ Shape s' (front ++ back) ∧
    s'.member = s.member ∧ s'.score = s.score

theorem Shape.removeRun_exact {front back : List Addr} (h : Shape s (front ++ back))
    {found : Nat → Addr × Int} (hf : Found s (header :: front) s.level found)
    (cond : Nat → Addr → Bool) :
    ∃ s', removeRun (fun i => (found i).1) cond (s.length.toNat + 1) s (s.forward (found 0).1 0) 0 =
        some (s', (takeRun cond 0 back).map fun a => (s.member a, s.score a)) ∧
      Shape s' (front ++ back.drop (takeRun cond 0 back).length) ∧
      s'.member = s.member ∧ s'.score = s.score := by
  obtain ⟨-, -, hnext⟩ := hf.zero h
  have hlen := h.length
  rw [List.length_append] at hlen
  rw [hnext]
  exact removeRun_shape cond h hf.preds (show back.length < s.length.toNat + 1 by omega) 0

theorem Shape.removeRun {front back : List Addr} (h : Shape s (front ++ back))
    {found : Nat → Addr × Int} (hf : Found s (header :: front) s.level found)
    (cond : Nat → Addr → Bool) :
    RemovesRow s (front ++ back) (removeRun (fun i => (found i).1) cond (s.length.toNat + 1) s
      (s.forward (found 0).1 0) 0) := by
  obtain ⟨s', hr, hs, hm, hsc⟩ := h.removeRun_exact hf cond
  exact ⟨s', front, takeRun cond 0 back, back.drop (takeRun cond 0 back).length,
    by rw [takeRun_append_drop], hr, hs, hm, hsc⟩

theorem less_mono {border : ScoreBorder σ} {x y : σ} (hxy : x ≤ y) (hy : border.less y = false) :
    border.less x = false := by
  rcases border with ⟨inf, value, exclude⟩
  cases inf with
  | negativeInf => simp [ScoreBorder.less] at hy
  | positiveInf => rfl
  | finite =>
      cases exclude with
      | false =>
          simp only [ScoreBorder.less, Bool.false_eq_true, if_false, decide_eq_false_iff_not,
            not_le] at hy ⊢
          exact lt_of_le_of_lt hxy hy
      | true =>
          simp only [ScoreBorder.less, if_true, decide_eq_false_iff_not, not_lt] at hy ⊢
          exact le_trans hxy hy

theorem Before.score_le {a b : Addr} (h : Before s a b) : s.score a ≤ s.score b :=
  h.elim le_of_lt fun he => le_of_eq he.1

theorem Shape.removeRangeByScore (h : Shape s nodes) (min max : ScoreBorder σ) (limit : Int) :
    RemovesRow s nodes (removeRangeByScore s min max limit) := by
  have hmono : nodes.Pairwise fun a b =>
      (!min.less (s.score b)) = true → (!min.less (s.score a)) = true := by
    refine h.sorted.imp fun {a b} hab hb => ?_
    simp only [Bool.not_eq_true'] at hb ⊢
    exact less_mono hab.score_le hb
  obtain ⟨front, back, rfl, hfront, hback⟩ := exists_split _ hmono
  obtain ⟨found, hs, hf⟩ := h.search (splits_of_forall _ hfront hback)
  simp only [SkipList.removeRangeByScore, hs, Option.bind_eq_bind, Option.bind_some]
  exact h.removeRun hf _

omit [LinearOrder σ] [LinearOrder μ] in
theorem splits_rank (nodes : List Addr) (start : Int) :
    Splits (fun rank _ => rank < start) (header :: nodes.take (start - 1).toNat)
      (nodes.drop (start - 1).toNat) := by
  intro pre b post he hne
  rw [List.cons_append, List.take_append_drop] at he
  have hpre := List.length_pos_iff.mpr hne
  have hlen := congrArg List.length he
  simp only [List.length_append, List.length_cons, decide_eq_true_eq, List.length_take] at hlen ⊢
  omega

theorem Shape.removeRangeByRank (h : Shape s nodes) (start stop : Int) :
    RemovesRow s nodes (removeRangeByRank s start stop) := by
  have h' : Shape s (nodes.take (start - 1).toNat ++ nodes.drop (start - 1).toNat) := by
    rwa [List.take_append_drop]
  obtain ⟨found, hs, hf⟩ := h'.search (splits_rank nodes start)
  have hrow := h'.removeRun hf (fun removed _ => (found 0).2 + 1 + removed < stop)
  rw [List.take_append_drop] at hrow
  simp only [SkipList.removeRangeByRank, hs, Option.bind_eq_bind, Option.bind_some]
  exact hrow

/-- The first node in the range of all scores is the first one. -/
theorem Shape.getFirst [Inhabited σ] (h : Shape s nodes) :
    getFirstInScoreRange s .negativeInfBorder .positiveInfBorder = some nodes.head? := by
  cases nodes with
  | nil => simp [getFirstInScoreRange, hasInRange, h.first_eq]
  | cons a nodes =>
      have hrange : hasInRange s .negativeInfBorder .positiveInfBorder = true := by
        obtain ⟨t, ht⟩ : ∃ t, (a :: nodes).getLast? = some t := ⟨_, List.getLast?_cons⟩
        simp [hasInRange, h.first_eq, h.tail_eq, ht, ScoreBorder.negativeInfBorder,
          ScoreBorder.positiveInfBorder, ScoreBorder.less, ScoreBorder.greater]
      have h' : Shape s ([] ++ a :: nodes) := h
      have hsplits : Splits (fun _ b => !ScoreBorder.negativeInfBorder.less (s.score b)) [header] (a :: nodes) :=
        splits_of_forall (fun b => !ScoreBorder.negativeInfBorder.less (s.score b)) (by simp)
          (fun b _ => rfl)
      obtain ⟨found, hs, hf⟩ := h'.search hsplits
      obtain ⟨-, -, hnext⟩ := hf.zero h'
      simp only [getFirstInScoreRange, hrange, if_true, hs, Option.bind_eq_bind, Option.bind_some, hnext,
        List.head?_cons]
      rfl

end

end SkipList

namespace SortedSet

open SkipList

variable {σ μ : Type} [LinearOrder σ] [LinearOrder μ]

/-- The skip list has its shape over the nodes, on each level of the list the links
lead through the nodes that are high enough, and the nodes are the pairs of the
dictionary. -/
structure Represents (z : SortedSet σ μ) (nodes : List Addr) : Prop where
  shape : Shape z.skipList nodes
  chains : ∀ i < z.skipList.level, Chain z.skipList i header (nodes.filter (tall z.skipList i))
  dict : ∀ member score, z.dict member = some score ↔
    ∃ a ∈ nodes, z.skipList.member a = member ∧ z.skipList.score a = score

/-- A random level; the largest value that the random number can yield, above
`maxLevel`, is left out. -/
abbrev Level := { level : Nat // 1 ≤ level ∧ level ≤ maxLevel }

inductive Op (σ μ : Type)
  | add (member : μ) (score : σ) (level : Level)
  | remove (member : μ)
  | removeByScore (min max : ScoreBorder σ)
  | removeByRank (start stop : Int)
  | popMin (count : Int)
  | popMax (count : Int)

theorem represents_of_shape {s : SkipList σ μ} {nodes : List Addr} (h : Shape s nodes)
    {dict : μ → Option σ} (hdict : ∀ member score, dict member = some score ↔
      ∃ a ∈ nodes, s.member a = member ∧ s.score a = score) :
    Represents ⟨dict, s⟩ nodes where
  shape := h
  chains i hi := chain_of_linked (h.links i hi) (by
    simp only [tall, h.head, decide_eq_true_eq]
    exact Nat.lt_of_lt_of_le hi h.level.2)
  dict := hdict

section

variable {z : SortedSet σ μ} {nodes : List Addr}

/-- Nodes that have their scores under their members have different members. -/
theorem keyed_member_inj {s : SkipList σ μ} {dict : μ → Option σ} (hs : Shape s nodes)
    (hdict : ∀ a ∈ nodes, dict (s.member a) = some (s.score a))
    {a b : Addr} (ha : a ∈ nodes) (hb : b ∈ nodes) (hm : s.member a = s.member b) : a = b := by
  have hscore : s.score a = s.score b :=
    Option.some.inj ((hdict a ha).symm.trans (hm ▸ hdict b hb))
  by_contra hne
  have hirr {c d : Addr} (hcd : Before s c d) (hs : s.score c = s.score d)
      (hm : s.member c = s.member d) : False := by
    rcases hcd with hlt | ⟨-, hlt⟩
    · exact absurd hs (ne_of_lt hlt)
    · exact absurd hm (ne_of_lt hlt)
  have hsorted := List.pairwise_iff_getElem.mp hs.sorted
  obtain ⟨i, hi, rfl⟩ := List.getElem_of_mem ha
  obtain ⟨j, hj, rfl⟩ := List.getElem_of_mem hb
  rcases Nat.lt_trichotomy i j with hij | rfl | hij
  · exact hirr (hsorted i j hi hj hij) hscore hm
  · exact hne rfl
  · exact hirr (hsorted j i hj hi hij) hscore.symm hm.symm

theorem Represents.member_inj (h : Represents z nodes) {a b : Addr} (ha : a ∈ nodes)
    (hb : b ∈ nodes) (hm : z.skipList.member a = z.skipList.member b) : a = b :=
  keyed_member_inj h.shape (fun c hc => (h.dict _ _).mpr ⟨c, hc, rfl, rfl⟩) ha hb hm

/-- A new member gets a node of its own. -/
theorem insert_represents {skipList : SkipList σ μ} (hs : Shape skipList nodes)
    {dict : μ → Option σ} {member : μ} (score : σ)
    (hdict : ∀ m sc, m ≠ member → (dict m = some sc ↔
      ∃ a ∈ nodes, skipList.member a = m ∧ skipList.score a = sc))
    (hfree : ∀ a ∈ nodes, skipList.member a ≠ member) (level : Level) :
    ∃ skipList' nodes', skipList.insert member score level = some skipList' ∧
      Represents ⟨Function.update dict member (some score), skipList'⟩ nodes' := by
  obtain ⟨s', nodes', hi, hshape, hmem, hm, hsc⟩ := @Shape.insert _ _ _ _ _ _ hs member score
    (fun a ha he => hfree a ha he.2) level level.2.1 level.2.2
  refine ⟨s', nodes', hi, represents_of_shape hshape fun m sc => ?_⟩
  have hold : ∀ a ∈ nodes, s'.member a = skipList.member a ∧ s'.score a = skipList.score a := by
    intro a ha
    have hne : a ≠ skipList.fresh :=
      fun he => hs.fresh_not_mem (he ▸ List.mem_cons_of_mem _ ha)
    exact ⟨by rw [hm, Function.update_of_ne hne], by rw [hsc, Function.update_of_ne hne]⟩
  by_cases hmm : m = member
  · subst hmm
    rw [Function.update_self, Option.some.injEq]
    constructor
    · rintro rfl
      exact ⟨skipList.fresh, (hmem _).mpr (Or.inl rfl), by rw [hm, Function.update_self],
        by rw [hsc, Function.update_self]⟩
    · rintro ⟨a, ha, hma, hsa⟩
      rcases (hmem a).mp ha with rfl | ha
      · rwa [hsc, Function.update_self] at hsa
      · exact absurd ((hold a ha).1.symm.trans hma) (hfree a ha)
  · rw [Function.update_of_ne hmm, hdict m sc hmm]
    constructor
    · rintro ⟨a, ha, hma, hsa⟩
      exact ⟨a, (hmem a).mpr (Or.inr ha), (hold a ha).1.trans hma, (hold a ha).2.trans hsa⟩
    · rintro ⟨a, ha, hma, hsa⟩
      rcases (hmem a).mp ha with rfl | ha
      · rw [hm, Function.update_self] at hma
        exact absurd hma.symm hmm
      · exact ⟨a, ha, (hold a ha).1.symm.trans hma, (hold a ha).2.symm.trans hsa⟩

theorem Represents.remove_node (h : Represents z nodes) {x : Addr} (hx : x ∈ nodes) :
    ∃ skipList nodes', z.skipList.remove (z.skipList.member x) (z.skipList.score x) =
        some (skipList, true) ∧ Shape skipList nodes' ∧
      (∀ a ∈ nodes', skipList.member a ≠ z.skipList.member x) ∧
      ∀ m sc, m ≠ z.skipList.member x → (z.dict m = some sc ↔
        ∃ a ∈ nodes', skipList.member a = m ∧ skipList.score a = sc) := by
  obtain ⟨s', nodes', hr, hshape, hmem, hm, hsc⟩ := h.shape.remove hx
  refine ⟨s', nodes', hr, hshape, fun a ha he => ?_, fun m sc hne => ?_⟩
  · obtain ⟨han, hax⟩ := (hmem a).mp ha
    exact hax (h.member_inj han hx (hm ▸ he))
  · rw [h.dict m sc, hm, hsc]
    constructor
    · rintro ⟨a, ha, rfl, rfl⟩
      exact ⟨a, (hmem a).mpr ⟨ha, fun he => hne (by rw [he])⟩, rfl, rfl⟩
    · rintro ⟨a, ha, rfl, rfl⟩
      exact ⟨a, ((hmem a).mp ha).1, rfl, rfl⟩

theorem Represents.add (h : Represents z nodes) (member : μ) (score : σ) (level : Level) :
    ∃ z' b nodes', z.add member score level = some (z', b) ∧ Represents z' nodes' := by
  rw [SortedSet.add]
  cases hd : z.dict member with
  | none =>
      obtain ⟨skipList, nodes', hi, hr⟩ := insert_represents h.shape score
        (fun m sc _ => h.dict m sc)
        (fun a ha he => by
          have := (h.dict _ _).mpr ⟨a, ha, rfl, rfl⟩
          rw [he, hd] at this
          simp at this) level
      exact ⟨_, true, nodes', by simp [hi], hr⟩
  | some old =>
      by_cases hsc : score ≠ old
      · obtain ⟨x, hx, rfl, rfl⟩ := (h.dict member old).mp hd
        obtain ⟨s₁, nodes₁, hr, hs₁, hfree, hdict⟩ := h.remove_node hx
        obtain ⟨skipList, nodes', hi, hrep⟩ := insert_represents hs₁ score hdict hfree level
        refine ⟨_, false, nodes', ?_, hrep⟩
        simp [hsc, hr, hi]
      · obtain rfl : score = old := not_not.mp hsc
        refine ⟨⟨Function.update z.dict member (some score), z.skipList⟩, false, nodes, by simp, ?_⟩
        have hsame : Function.update z.dict member (some score) = z.dict := by
          rw [← hd, Function.update_eq_self]
        rw [hsame]
        exact h

theorem Represents.remove (h : Represents z nodes) (member : μ) :
    ∃ z' b nodes', z.remove member = some (z', b) ∧ Represents z' nodes' := by
  rw [SortedSet.remove]
  cases hd : z.dict member with
  | none => exact ⟨z, false, nodes, rfl, h⟩
  | some score =>
      obtain ⟨x, hx, rfl, rfl⟩ := (h.dict member score).mp hd
      obtain ⟨s₁, nodes₁, hr, hs₁, hfree, hdict⟩ := h.remove_node hx
      refine ⟨_, true, nodes₁, by simp [hr]; rfl, represents_of_shape hs₁ fun m sc => ?_⟩
      by_cases hm : m = z.skipList.member x
      · subst hm
        simp only [Function.update_self, reduceCtorEq, false_iff]
        rintro ⟨a, ha, he, -⟩
        exact hfree a ha he
      · simpa [hm] using hdict m sc hm

omit [LinearOrder σ] in
theorem deleteAll_eq (dict : μ → Option σ) (removed : List (μ × σ)) (m : μ) :
    deleteAll dict removed m = if m ∈ removed.map Prod.fst then none else dict m := by
  induction removed generalizing dict with
  | nil => simp [deleteAll]
  | cons e removed ih =>
      rw [deleteAll, List.foldl_cons, ← deleteAll, ih]
      by_cases hm : m ∈ removed.map Prod.fst
      · simp only [hm, if_true, List.map_cons, List.mem_cons, or_true]
      · by_cases he : m = e.1
        · subst he
          simp [hm]
        · simp [hm, he]

/-- When the members of a row of nodes leave the dictionary with their nodes, the
rest is still represented. -/
theorem Represents.removesRow (h : Represents z nodes)
    {result : Option (SkipList σ μ × List (μ × σ))} (hr : RemovesRow z.skipList nodes result) :
    ∃ skipList removed nodes', result = some (skipList, removed) ∧
      Represents ⟨deleteAll z.dict removed, skipList⟩ nodes' := by
  obtain ⟨s', front, row, back, rfl, rfl, hshape, hm, hsc⟩ := hr
  refine ⟨s', _, front ++ back, rfl, represents_of_shape hshape fun m sc => ?_⟩
  have hkept : ∀ a ∈ front ++ back, z.skipList.member a ∉
      (row.map fun a => (z.skipList.member a, z.skipList.score a)).map Prod.fst := by
    intro a ha hmem
    simp only [List.map_map, List.mem_map, Function.comp_apply] at hmem
    obtain ⟨b, hb, he⟩ := hmem
    have hab : b = a := h.member_inj (by simp [hb]) (by
      simp only [List.mem_append] at ha ⊢
      tauto) he
    have hnodup := h.shape.nodup
    simp only [List.nodup_cons, List.nodup_append, List.mem_append] at hnodup ha
    subst hab
    rcases ha with ha | ha
    · exact hnodup.2.2.2 b ha b (Or.inl hb) rfl
    · exact hnodup.2.2.1.2.2 b hb b ha rfl
  rw [deleteAll_eq, hm, hsc]
  by_cases hgone : m ∈ (row.map fun a => (z.skipList.member a, z.skipList.score a)).map Prod.fst
  · rw [if_pos hgone]
    simp only [reduceCtorEq, false_iff]
    rintro ⟨a, ha, rfl, -⟩
    exact hkept a ha hgone
  · rw [if_neg hgone, h.dict m sc]
    constructor
    · rintro ⟨a, ha, rfl, rfl⟩
      refine ⟨a, ?_, rfl, rfl⟩
      simp only [List.mem_append] at ha ⊢
      rcases ha with ha | ha | ha
      · exact Or.inl ha
      · exact absurd (List.mem_map.mpr ⟨_, List.mem_map.mpr ⟨a, ha, rfl⟩, rfl⟩) hgone
      · exact Or.inr ha
    · rintro ⟨a, ha, rfl, rfl⟩
      refine ⟨a, ?_, rfl, rfl⟩
      simp only [List.mem_append] at ha ⊢
      tauto

/-- The set is left as it is, or a row of nodes leaves it with its members. -/
def TakesRow (z : SortedSet σ μ) (nodes : List Addr) (left : Option (SortedSet σ μ)) : Prop :=
  left = some z ∨ ∃ result, RemovesRow z.skipList nodes result ∧
    left = result.map fun (skipList, removed) => ⟨deleteAll z.dict removed, skipList⟩

theorem takesRow_removeByScore (h : Shape z.skipList nodes) (min max : ScoreBorder σ) :
    TakesRow z nodes ((z.removeByScore min max).map Prod.fst) := by
  refine .inr ⟨_, h.removeRangeByScore min max 0, ?_⟩
  rw [SortedSet.removeByScore]
  cases z.skipList.removeRangeByScore min max 0 with
  | none => rfl
  | some result => rfl

theorem takesRow_removeByRank (h : Shape z.skipList nodes) (start stop : Int) :
    TakesRow z nodes ((z.removeByRank start stop).map Prod.fst) := by
  refine .inr ⟨_, h.removeRangeByRank (wrap64 (start + 1)) (wrap64 (stop + 1)), ?_⟩
  rw [SortedSet.removeByRank]
  cases z.skipList.removeRangeByRank (wrap64 (start + 1)) (wrap64 (stop + 1)) with
  | none => rfl
  | some result => rfl

theorem takesRow_popMin [Inhabited σ] (h : Shape z.skipList nodes) (count : Int) :
    TakesRow z nodes ((z.popMin count).map Prod.fst) := by
  rw [SortedSet.popMin, h.getFirst]
  cases nodes.head? with
  | none => exact .inl rfl
  | some first =>
      let border : ScoreBorder σ := ⟨.finite, z.skipList.score first, false⟩
      refine .inr ⟨_, h.removeRangeByScore border .positiveInfBorder count, ?_⟩
      simp only [Option.bind_eq_bind, Option.bind_some]
      cases z.skipList.removeRangeByScore border .positiveInfBorder count with
      | none => rfl
      | some result => rfl

theorem takesRow_popMax (h : Shape z.skipList nodes) (count : Int) :
    TakesRow z nodes ((z.popMax count).map Prod.fst) := by
  let length := z.skipList.length
  refine .inr ⟨_, h.removeRangeByRank (wrap64 (length - wrap64 (count - 1))) (wrap64 (length + 1)), ?_⟩
  rw [SortedSet.popMax]
  dsimp only
  cases z.skipList.removeRangeByRank (wrap64 (length - wrap64 (count - 1))) (wrap64 (length + 1)) with
  | none => rfl
  | some result => rfl

theorem Represents.takesRow (h : Represents z nodes) {left : Option (SortedSet σ μ)}
    (ht : TakesRow z nodes left) : ∃ z' nodes', left = some z' ∧ Represents z' nodes' := by
  rcases ht with hsame | ⟨result, hrow, hleft⟩
  · exact ⟨z, nodes, hsame, h⟩
  · obtain ⟨s', removed, nodes', rfl, hr⟩ := h.removesRow hrow
    exact ⟨_, nodes', hleft, hr⟩

section

variable [Inhabited σ]

def step (z : SortedSet σ μ) : Op σ μ → Option (SortedSet σ μ)
  | .add member score level => (z.add member score level).map Prod.fst
  | .remove member => (z.remove member).map Prod.fst
  | .removeByScore min max => (z.removeByScore min max).map Prod.fst
  | .removeByRank start stop => (z.removeByRank start stop).map Prod.fst
  | .popMin count => (z.popMin count).map Prod.fst
  | .popMax count => (z.popMax count).map Prod.fst

/-- None is a panic. -/
def run (z : SortedSet σ μ) : List (Op σ μ) → Option (SortedSet σ μ)
  | [] => some z
  | op :: ops => (step z op).bind fun z => run z ops

theorem Represents.step (h : Represents z nodes) (op : Op σ μ) :
    ∃ z' nodes', step z op = some z' ∧ Represents z' nodes' := by
  cases op with
  | add member score level =>
      obtain ⟨z', b, nodes', ha, hr⟩ := h.add member score level
      exact ⟨z', nodes', by rw [SortedSet.step, ha]; rfl, hr⟩
  | remove member =>
      obtain ⟨z', b, nodes', ha, hr⟩ := h.remove member
      exact ⟨z', nodes', by rw [SortedSet.step, ha]; rfl, hr⟩
  | removeByScore min max => exact h.takesRow (takesRow_removeByScore h.shape min max)
  | removeByRank start stop => exact h.takesRow (takesRow_removeByRank h.shape start stop)
  | popMin count => exact h.takesRow (takesRow_popMin h.shape count)
  | popMax count => exact h.takesRow (takesRow_popMax h.shape count)

theorem Represents.run (h : Represents z nodes) (ops : List (Op σ μ)) :
    ∃ z' nodes', run z ops = some z' ∧ Represents z' nodes' := by
  induction ops generalizing z nodes with
  | nil => exact ⟨z, nodes, rfl, h⟩
  | cons op ops ih =>
      obtain ⟨z', nodes', hs, hr⟩ := h.step op
      obtain ⟨z'', nodes'', hrun, hr'⟩ := ih hr
      exact ⟨z'', nodes'', by rw [SortedSet.run, hs, Option.bind_some, hrun], hr'⟩

end

end

theorem make_represents [Inhabited σ] [Inhabited μ] : Represents (make : SortedSet σ μ) [] :=
  represents_of_shape makeSkipList_shape (fun _ _ => by simp)

/-- No operation panics, and after any of them the skip list has its shape over the
pairs of the dictionary. -/
theorem run_make_represents [Inhabited σ] [Inhabited μ] (ops : List (Op σ μ)) :
    ∃ z nodes, run make ops = some z ∧ Represents z nodes :=
  make_represents.run ops

end SortedSet

end Traitor
