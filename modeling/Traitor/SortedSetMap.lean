import Traitor.Lib.Windows
import Traitor.LostScores

namespace Traitor

/-- Strings are compared byte by byte. -/
local instance bytesOrder : LinearOrder Bytes where
  le_refl := Std.le_refl
  le_trans _ _ _ := Std.le_trans
  lt_iff_le_not_ge _ _ := Std.lt_iff_le_and_not_ge
  le_antisymm _ _ := Std.le_antisymm
  le_total _ _ := Std.le_total
  toDecidableLE := inferInstance
  toDecidableEq := inferInstance
  toDecidableLT := inferInstance
  compare a b := compareOfLessAndEq a b
  compare_eq_compareOfLessAndEq _ _ := by rfl

namespace Database

open Lib.Effects Lib.Strconv Lib.Windows Protocol

variable {σ : Type} [LinearOrder σ]

def Node.Before (a b : Node σ) : Prop := a.score < b.score ∨ a.score = b.score ∧ a.member < b.member

namespace ZSet

structure Valid (z : ZSet σ) : Prop where
  sorted : z.nodes.Pairwise Node.Before
  dict : ∀ member score, z.dict.lookup member = some score ↔
    ∃ a ∈ z.nodes, a.member = member ∧ a.score = score

variable {z : ZSet σ} {nodes front back : List (Node σ)} {member : Bytes} {score : σ} {height : Nat}

theorem make_valid : Valid (make : ZSet σ) := ⟨.nil, by simp [make]⟩

theorem precedes_mono (h : nodes.Pairwise Node.Before) (member : Bytes) (score : σ) :
    nodes.Pairwise fun a b => precedes member score b = true → precedes member score a = true := by
  refine h.imp fun {a b} hab hb => ?_
  simp only [precedes, Bool.or_eq_true, Bool.and_eq_true, decide_eq_true_eq] at hb ⊢
  exact lex_trans hab (hb.imp id fun he => ⟨he.1, he.2.le⟩)

/-- A new node comes between those in front of it and the others. -/
theorem insertNode_sorted (h : nodes.Pairwise Node.Before) (hfree : ∀ a ∈ nodes, a.member ≠ member) :
    (insertNode nodes member score height).Pairwise Node.Before ∧
      ∀ a, a ∈ insertNode nodes member score height ↔ a = ⟨score, member, height⟩ ∨ a ∈ nodes := by
  obtain ⟨front, back, rfl, hfront, hback⟩ := exists_split _ (precedes_mono h member score)
  have hinsert : insertNode (front ++ back) member score height =
      front ++ ⟨score, member, height⟩ :: back := by
    rw [insertNode, takeWhile_split hfront hback, dropWhile_split hfront hback]
  obtain ⟨hsorted, hsorted', hacross⟩ := List.pairwise_append.mp h
  rw [hinsert]
  refine ⟨List.pairwise_append.mpr ⟨hsorted, List.pairwise_cons.mpr ⟨fun b hb => ?_, hsorted'⟩,
    fun a ha b hb => ?_⟩, fun a => ?_⟩
  · have hnot := hback b hb
    simp only [precedes, Bool.or_eq_false_iff, Bool.and_eq_false_iff, decide_eq_false_iff_not,
      not_lt] at hnot
    rcases lt_or_eq_of_le hnot.1 with hlt | heq
    · exact .inl hlt
    · have hm : member ≤ b.member := hnot.2.resolve_left fun hne => hne heq.symm
      exact .inr ⟨heq, lt_of_le_of_ne hm (hfree b (by simp [hb])).symm⟩
  · rcases List.mem_cons.mp hb with rfl | hb
    · simpa [precedes, Node.Before] using hfront a ha
    · exact hacross a ha b hb
  · simp only [List.mem_append, List.mem_cons]
    tauto

/-- The node of a member and score is taken away. -/
theorem removeNode_split {x : Node σ} (h : (front ++ x :: back).Pairwise Node.Before) :
    removeNode (front ++ x :: back) x.member x.score = front ++ back := by
  have hfront : ∀ a ∈ front, precedes x.member x.score a = true := fun a ha => by
    have hbefore := (List.pairwise_append.mp h).2.2 a ha x List.mem_cons_self
    simpa [precedes, Node.Before] using hbefore
  have hself : precedes x.member x.score x = false := by simp [precedes]
  rw [removeNode, takeWhile_append_stop hfront hself, dropWhile_append_stop hfront hself]
  exact if_pos ⟨rfl, rfl⟩

theorem removeNode_absent (h : ∀ a ∈ nodes, ¬ (a.score = score ∧ a.member = member)) :
    removeNode nodes member score = nodes := by
  rw [removeNode]
  cases hrest : nodes.dropWhile (precedes member score) with
  | nil => rfl
  | cons a after =>
      have ha : a ∈ nodes := by
        apply (List.dropWhile_sublist (precedes member score)).subset
        rw [hrest]
        exact List.mem_cons_self
      dsimp only
      rw [if_neg]
      rintro ⟨hscore, hmember⟩
      exact h a ha ⟨hscore.symm, hmember⟩

namespace Valid

theorem member_inj (h : Valid z) {a b : Node σ} (ha : a ∈ z.nodes) (hb : b ∈ z.nodes)
    (hab : a.Before b) : a.member ≠ b.member := by
  intro hm
  have hlookup := (h.dict a.member a.score).mpr ⟨a, ha, rfl, rfl⟩
  rw [hm, (h.dict b.member b.score).mpr ⟨b, hb, rfl, rfl⟩, Option.some.injEq] at hlookup
  rcases hab with hlt | ⟨-, hlt⟩
  · exact absurd hlookup hlt.ne'
  · exact absurd hm hlt.ne

theorem card (h : Valid z) : z.dict.keys.card = z.nodes.length := by
  have hnodup : (z.nodes.map Node.member).Nodup := by
    rw [List.Nodup, List.pairwise_map]
    exact h.sorted.imp_of_mem fun ha hb hab => h.member_inj ha hb hab
  have hkeys : z.dict.keys = (z.nodes.map Node.member).toFinset := by
    ext member
    rw [Finmap.mem_keys, ← Finmap.lookup_isSome, Option.isSome_iff_exists, List.mem_toFinset, List.mem_map]
    constructor
    · rintro ⟨score, hscore⟩
      obtain ⟨a, ha, hm, -⟩ := (h.dict member score).mp hscore
      exact ⟨a, ha, hm⟩
    · rintro ⟨a, ha, rfl⟩
      exact ⟨a.score, (h.dict _ _).mpr ⟨a, ha, rfl, rfl⟩⟩
  rw [hkeys, List.toFinset_card_of_nodup hnodup, List.length_map]

/-- The others keep their nodes when the one of a member goes. -/
theorem removeNode (h : Valid z) (hscore : z.dict.lookup member = some score) :
    (removeNode z.nodes member score).Pairwise Node.Before ∧
      ∀ a, a ∈ removeNode z.nodes member score ↔ a ∈ z.nodes ∧ a.member ≠ member := by
  obtain ⟨x, hx, rfl, rfl⟩ := (h.dict member score).mp hscore
  obtain ⟨front, back, hsplit⟩ := List.append_of_mem hx
  have hsorted := h.sorted
  rw [hsplit] at hsorted ⊢
  have hone (a : Node σ) (ha : a ∈ front ++ back) : a.member ≠ x.member := by
    obtain ⟨-, hbehind, hacross⟩ := List.pairwise_append.mp hsorted
    have hmem (b : Node σ) (hb : b ∈ front ++ back) : b ∈ z.nodes := by
      rw [hsplit]
      simp only [List.mem_append, List.mem_cons] at hb ⊢
      tauto
    rcases List.mem_append.mp ha with hfront | hback
    · exact h.member_inj (hmem a ha) hx (hacross a hfront x List.mem_cons_self)
    · exact (h.member_inj hx (hmem a ha) ((List.pairwise_cons.mp hbehind).1 a hback)).symm
  rw [removeNode_split hsorted]
  refine ⟨hsorted.sublist ((List.sublist_cons_self _ _).append_left _), fun a => ⟨fun ha => ⟨?_, hone a ha⟩, ?_⟩⟩
  · simp only [List.mem_append, List.mem_cons] at ha ⊢
    tauto
  · rintro ⟨ha, hne⟩
    simp only [List.mem_append, List.mem_cons] at ha ⊢
    rcases ha with ha | rfl | ha
    · exact .inl ha
    · exact absurd rfl hne
    · exact .inr ha

/-- A new node for a member that has none in the list. -/
theorem insertNode (hsorted : nodes.Pairwise Node.Before) {dict : Dict σ}
    (hfree : ∀ a ∈ nodes, a.member ≠ member) (score : σ) (height : Nat)
    (hdict : ∀ m s, m ≠ member → (dict.lookup m = some s ↔ ∃ a ∈ nodes, a.member = m ∧ a.score = s)) :
    Valid ⟨dict.insert member score, insertNode nodes member score height⟩ := by
  obtain ⟨hsorted', hmem⟩ := @insertNode_sorted _ _ _ member score height hsorted hfree
  refine ⟨hsorted', fun m s => ?_⟩
  dsimp only
  by_cases hm : m = member
  · subst hm
    rw [Finmap.lookup_insert, Option.some.injEq]
    constructor
    · rintro rfl
      exact ⟨⟨score, m, height⟩, (hmem _).mpr (.inl rfl), rfl, rfl⟩
    · rintro ⟨a, ha, ham, has⟩
      rcases (hmem a).mp ha with rfl | ha
      · exact has
      · exact absurd ham (hfree a ha)
  · rw [Finmap.lookup_insert_of_ne _ hm, hdict m s hm]
    constructor
    · rintro ⟨a, ha, ham, has⟩
      exact ⟨a, (hmem a).mpr (.inr ha), ham, has⟩
    · rintro ⟨a, ha, ham, has⟩
      rcases (hmem a).mp ha with rfl | ha
      · exact absurd ham.symm hm
      · exact ⟨a, ha, ham, has⟩

/-- Unless a node is too high, the dictionary takes the score and the nodes follow it. -/
theorem add (h : Valid z) (hheight : z.dict.lookup member ≠ some score → height ≤ SkipList.maxLevel) :
    (z.add member score height).2 = some (z.dict.lookup member).isNone ∧
      (z.add member score height).1.dict = z.dict.insert member score ∧ Valid (z.add member score height).1 := by
  cases hold : z.dict.lookup member with
  | none =>
      have hfits := hheight (by simp [hold])
      have hfree (a : Node σ) (ha : a ∈ z.nodes) : a.member ≠ member := by
        rintro rfl
        rw [(h.dict _ _).mpr ⟨a, ha, rfl, rfl⟩] at hold
        cases hold
      rw [ZSet.add, hold]
      dsimp only
      rw [if_neg (not_lt.mpr hfits)]
      exact ⟨rfl, rfl, insertNode h.sorted hfree score height fun m s _ => h.dict m s⟩
  | some old =>
      by_cases hsame : score = old
      · subst hsame
        rw [add_same hold, insert_same hold]
        exact ⟨rfl, rfl, h⟩
      · have hfits := hheight (by
          rw [hold]
          exact fun he => hsame (Option.some.inj he).symm)
        obtain ⟨hsorted, hmem⟩ := h.removeNode hold
        rw [add_moved hold hsame, if_neg (not_lt.mpr hfits)]
        refine ⟨rfl, rfl, insertNode hsorted (fun a ha => ((hmem a).mp ha).2) score height fun m s hm => ?_⟩
        rw [h.dict m s]
        apply exists_congr
        intro a
        rw [hmem a]
        constructor
        · rintro ⟨ha, ham, has⟩
          exact ⟨⟨ha, ham ▸ hm⟩, ham, has⟩
        · rintro ⟨⟨ha, -⟩, ham, has⟩
          exact ⟨ha, ham, has⟩

theorem remove (h : Valid z) (member : Bytes) :
    (z.remove member).2 = (z.dict.lookup member).isSome ∧ (z.remove member).1.dict = z.dict.erase member ∧
      Valid (z.remove member).1 := by
  rw [ZSet.remove]
  cases hold : z.dict.lookup member with
  | none =>
      have hsame : z.dict.erase member = z.dict := by
        apply Finmap.ext_lookup
        intro m
        by_cases hm : m = member
        · rw [hm, Finmap.lookup_erase, hold]
        · rw [Finmap.lookup_erase_ne hm]
      exact ⟨rfl, hsame.symm, h⟩
  | some score =>
      obtain ⟨hsorted, hmem⟩ := h.removeNode hold
      refine ⟨rfl, rfl, hsorted, fun m s => ?_⟩
      dsimp only
      by_cases hm : m = member
      · subst hm
        rw [Finmap.lookup_erase]
        apply iff_of_false (by simp)
        rintro ⟨a, ha, ham, -⟩
        exact ((hmem a).mp ha).2 ham
      · rw [Finmap.lookup_erase_ne hm, h.dict m s]
        apply exists_congr
        intro a
        rw [hmem a]
        constructor
        · rintro ⟨ha, ham, has⟩
          exact ⟨⟨ha, ham ▸ hm⟩, ham, has⟩
        · rintro ⟨⟨ha, -⟩, ham, has⟩
          exact ⟨ha, ham, has⟩

end Valid

/-- A node that is too high panics. -/
theorem add_none (hhigh : SkipList.maxLevel < height) (hd : z.dict.lookup member ≠ some score) :
    (z.add member score height).2 = none := by
  cases hold : z.dict.lookup member with
  | none => simp [add, hold, hhigh]
  | some old =>
      have hne : score ≠ old := fun he => hd (by rw [hold, he])
      rw [add_moved hold hne, if_pos hhigh]

end ZSet

end Database

end Traitor
