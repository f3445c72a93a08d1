import Mathlib.Data.Int.Order.Basic
import Mathlib.Data.String.Basic
import Traitor.SortedSetInvariant

namespace Traitor

open Lib.SkipChain Lib.Windows

namespace SkipList

variable {σ μ : Type} [LinearOrder σ] [LinearOrder μ] {s : SkipList σ μ} {nodes : List Addr}

/-- A member and score without a node are not found. -/
theorem Shape.remove_absent (h : Shape s nodes) {member : μ} {score : σ}
    (hfree : ∀ a ∈ nodes, ¬ (s.score a = score ∧ s.member a = member)) :
    SkipList.remove s member score = some (s, false) := by
  obtain ⟨front, back, rfl, hfront, hback⟩ := exists_split _ (precedes_mono h member score)
  obtain ⟨found, hs, hf⟩ := h.search (splits_of_forall _ hfront hback)
  obtain ⟨-, -, hnext⟩ := hf.zero h
  simp only [SkipList.remove, hs, Option.bind_eq_bind, Option.bind_some, hnext]
  cases back with
  | nil => rfl
  | cons b back =>
      have hb := hfree b (by simp)
      rw [List.head?_cons]
      dsimp only
      rw [if_neg]
      rintro ⟨hscore, hmember⟩
      exact hb ⟨hscore.symm, hmember⟩

/-- A level above the maximal one panics. -/
theorem insert_high {level : Nat} (hlevel : maxLevel < level) (s : SkipList σ μ) (member : μ) (score : σ) :
    SkipList.insert s member score level = none := by
  rw [SkipList.insert]
  cases search s (fun _ a => precedes s member score a) s.level header 0 with
  | none => rfl
  | some found => simp [hlevel]

theorem Shape.insertPanicked (h : Shape s nodes) : Shape s.insertPanicked nodes where
  nodup := h.nodup
  fresh := h.fresh
  head := h.head
  heights := h.heights
  level := h.level
  links i hi := by
    have hi' : i < s.level := hi
    apply linked_congr (h.links i hi')
    intro a _
    simp [linkAt, SkipList.insertPanicked, extendSpan, hi']
  above := h.above
  length := h.length
  backed := h.backed
  sorted := h.sorted
  highest := h.highest

end SkipList

namespace SortedSet

open SkipList

variable {σ μ : Type}

variable [LinearOrder σ] [LinearOrder μ]

/-- What holds after a panic too: each node has its score in the dictionary, which may have more. -/
structure Sound [Inhabited μ] (z : SortedSet σ μ) (nodes : List Addr) : Prop where
  shape : Shape z.skipList nodes
  dict : ∀ a ∈ nodes, z.dict (z.skipList.member a) = some (z.skipList.score a)
  header : z.skipList.member header = default

section

variable {z : SortedSet σ μ} {nodes : List Addr} {dict : μ → Option σ} {s : SkipList σ μ} {member : μ}
  {score : σ}

variable [Inhabited μ]

theorem insert_sound (hs : Shape s nodes) (hdict : ∀ a ∈ nodes, dict (s.member a) = some (s.score a))
    (hheader : s.member header = default) (hfree : ∀ a ∈ nodes, s.member a ≠ member) (score : σ)
    {level : Nat} (hpos : 1 ≤ level) (hlevel : level ≤ maxLevel) :
    ∃ s' nodes', s.insert member score level = some s' ∧
      Sound ⟨Function.update dict member (some score), s'⟩ nodes' ∧
      ∃ a ∈ nodes', s'.member a = member ∧ s'.score a = score := by
  obtain ⟨s', nodes', hi, hshape, hmem, hm, hsc⟩ :=
    @Shape.insert _ _ _ _ _ _ hs member score (fun a ha he => hfree a ha he.2) level hpos hlevel
  have hold (a : Addr) (ha : a ∈ SkipList.header :: nodes) :
      s'.member a = s.member a ∧ s'.score a = s.score a := by
    have hne : a ≠ s.fresh := fun he => hs.fresh_not_mem (he ▸ ha)
    rw [hm, hsc, Function.update_of_ne hne, Function.update_of_ne hne]
    exact ⟨rfl, rfl⟩
  have hnew : s'.member s.fresh = member ∧ s'.score s.fresh = score := by
    rw [hm, hsc, Function.update_self, Function.update_self]
    exact ⟨rfl, rfl⟩
  refine ⟨s', nodes', hi, ⟨hshape, fun a ha => ?_, ?_⟩, s.fresh, (hmem _).mpr (.inl rfl), hnew⟩ <;>
    dsimp only
  · rcases (hmem a).mp ha with rfl | ha
    · rw [hnew.1, hnew.2, Function.update_self]
    · obtain ⟨hma, hsa⟩ := hold a (List.mem_cons_of_mem _ ha)
      rw [hma, hsa, Function.update_of_ne (hfree a ha), hdict a ha]
  · rw [(hold _ List.mem_cons_self).1, hheader]

/-- The node of a member, if there is one, is taken away. -/
theorem Sound.remove_node (h : Sound z nodes) (hd : z.dict member = some score) :
    ∃ s' b nodes', z.skipList.remove member score = some (s', b) ∧ Shape s' nodes' ∧
      (∀ a ∈ nodes', z.dict (s'.member a) = some (s'.score a) ∧ s'.member a ≠ member) ∧
      s'.member SkipList.header = default := by
  by_cases hnode : ∃ x ∈ nodes, z.skipList.member x = member
  · obtain ⟨x, hx, rfl⟩ := hnode
    obtain rfl : z.skipList.score x = score := Option.some.inj ((h.dict x hx).symm.trans hd)
    obtain ⟨s', nodes', hr, hshape, hmem, hm, hsc⟩ := h.shape.remove hx
    refine ⟨s', true, nodes', hr, hshape, fun a ha => ?_, by rw [hm, h.header]⟩
    obtain ⟨han, hax⟩ := (hmem a).mp ha
    rw [hm, hsc]
    exact ⟨h.dict a han, fun he => hax (keyed_member_inj h.shape h.dict han hx he)⟩
  · have hne (a : Addr) (ha : a ∈ nodes) : z.skipList.member a ≠ member := fun he => hnode ⟨a, ha, he⟩
    exact ⟨z.skipList, false, nodes, h.shape.remove_absent fun a ha he => hne a ha he.2, h.shape,
      fun a ha => ⟨h.dict a ha, hne a ha⟩, h.header⟩

/-- The new score is in the dictionary, and in the list unless the dictionary had it already. -/
theorem Sound.add (h : Sound z nodes) (member : μ) (score : σ) {level : Nat} (hpos : 1 ≤ level)
    (hlevel : level ≤ maxLevel) :
    ∃ z' b nodes', z.add member score level = some (z', b) ∧ Sound z' nodes' ∧
      z'.dict = Function.update z.dict member (some score) ∧
      (z.dict member = some score → z' = z) ∧
      (z.dict member ≠ some score → ∃ a ∈ nodes', z'.skipList.member a = member ∧
        z'.skipList.score a = score) := by
  rw [SortedSet.add]
  cases hd : z.dict member with
  | none =>
      have hfree (a : Addr) (ha : a ∈ nodes) : z.skipList.member a ≠ member := by
        intro he
        have hsome := h.dict a ha
        rw [he, hd] at hsome
        cases hsome
      obtain ⟨s', nodes', hi, hsound, hnew⟩ := insert_sound h.shape h.dict h.header hfree score hpos hlevel
      exact ⟨_, true, nodes', by simp [hi], hsound, rfl, by simp, fun _ => hnew⟩
  | some old =>
      by_cases hne : score ≠ old
      · obtain ⟨s₁, b, nodes₁, hr, hs₁, hdict, hheader⟩ := h.remove_node hd
        obtain ⟨s', nodes', hi, hsound, hnew⟩ := insert_sound hs₁ (fun a ha => (hdict a ha).1) hheader
          (fun a ha => (hdict a ha).2) score hpos hlevel
        refine ⟨_, false, nodes', by simp [hne, hr, hi], hsound, rfl, fun he => ?_, fun _ => hnew⟩
        exact absurd (Option.some.inj he).symm hne
      · obtain rfl : score = old := not_not.mp hne
        have hsame : Function.update z.dict member (some score) = z.dict := by
          rw [← hd, Function.update_eq_self]
        refine ⟨⟨Function.update z.dict member (some score), z.skipList⟩, false, nodes, by simp, ?_, rfl,
          fun _ => by rw [hsame], fun hn => absurd rfl hn⟩
        rw [hsame]
        exact h

/-- A node that is too high panics, after everything but its links. -/
theorem Sound.add_panics (h : Sound z nodes) {level : Nat} (hlevel : maxLevel < level)
    (hd : z.dict member ≠ some score) : z.add member score level = none := by
  rw [SortedSet.add]
  cases hold : z.dict member with
  | none => simp [insert_high hlevel]
  | some old =>
      have hne : score ≠ old := by
        rintro rfl
        exact hd hold
      obtain ⟨s', b, nodes', hr, -⟩ := h.remove_node hold
      simp [hne, hr, insert_high hlevel]

theorem Sound.addPanicked (h : Sound z nodes) (member : μ) (score : σ) :
    ∃ z' nodes', z.addPanicked member score = some z' ∧ Sound z' nodes' := by
  rw [SortedSet.addPanicked]
  cases hd : z.dict member with
  | none =>
      refine ⟨_, nodes, rfl, h.shape.insertPanicked, fun a ha => ?_, h.header⟩
      have hsome := h.dict a ha
      have hne : z.skipList.member a ≠ member := by
        intro he
        rw [he, hd] at hsome
        cases hsome
      exact (Function.update_of_ne hne _ _).trans hsome
  | some old =>
      obtain ⟨s', b, nodes', hr, hshape, hdict, hheader⟩ := h.remove_node hd
      refine ⟨⟨Function.update z.dict member (some score), s'.insertPanicked⟩, nodes', by simp [hr],
        hshape.insertPanicked, fun a ha => ?_, hheader⟩
      exact (Function.update_of_ne (hdict a ha).2 _ _).trans (hdict a ha).1

theorem Sound.remove (h : Sound z nodes) (member : μ) :
    ∃ z' b nodes', z.remove member = some (z', b) ∧ Sound z' nodes' := by
  rw [SortedSet.remove]
  cases hd : z.dict member with
  | none => exact ⟨z, false, nodes, rfl, h⟩
  | some score =>
      obtain ⟨s', b, nodes', hr, hshape, hdict, hheader⟩ := h.remove_node hd
      refine ⟨_, true, nodes', by simp [hr]; rfl, hshape, fun a ha => ?_, hheader⟩
      exact (Function.update_of_ne (hdict a ha).2 _ _).trans (hdict a ha).1

/-- The members of a row of nodes leave the dictionary with their nodes. -/
theorem Sound.removesRow (h : Sound z nodes) {result : Option (SkipList σ μ × List (μ × σ))}
    (hr : RemovesRow z.skipList nodes result) :
    ∃ s' removed nodes', result = some (s', removed) ∧ Sound ⟨deleteAll z.dict removed, s'⟩ nodes' := by
  obtain ⟨s', front, row, back, rfl, rfl, hshape, hm, hsc⟩ := hr
  refine ⟨s', _, front ++ back, rfl, hshape, fun a ha => ?_, by rw [hm, h.header]⟩
  have hin : a ∈ front ++ (row ++ back) := by
    simp only [List.mem_append] at ha ⊢
    tauto
  have hkept : a ∉ row := by
    have hnodup := h.shape.nodup
    simp only [List.nodup_cons, List.nodup_append, List.mem_append] at hnodup ha
    intro hrow
    rcases ha with ha | ha
    · exact hnodup.2.2.2 a ha a (.inl hrow) rfl
    · exact hnodup.2.2.1.2.2 a hrow a ha rfl
  dsimp only
  rw [deleteAll_eq, hm, hsc, if_neg, h.dict a hin]
  simp only [List.map_map, List.mem_map, Function.comp_apply]
  rintro ⟨b, hb, he⟩
  exact hkept (keyed_member_inj h.shape h.dict (by simp [hb]) hin he ▸ hb)

theorem Sound.takesRow (h : Sound z nodes) {left : Option (SortedSet σ μ)} (ht : TakesRow z nodes left) :
    ∃ z' nodes', left = some z' ∧ Sound z' nodes' := by
  rcases ht with hsame | ⟨result, hrow, hleft⟩
  · exact ⟨z, nodes, hsame, h⟩
  · obtain ⟨s', removed, nodes', rfl, hr⟩ := h.removesRow hrow
    exact ⟨_, nodes', hleft, hr⟩

omit [Inhabited μ] in
theorem elements_of_shape (h : Shape z.skipList nodes) : z.elements = nodes.map z.skipList.element := by
  rw [elements, h.nodes_eq]

theorem Sound.elements_eq (h : Sound z nodes) : z.elements = nodes.map z.skipList.element :=
  elements_of_shape h.shape

end

inductive Call (σ μ : Type)
  | add (member : μ) (score : σ) (draw : UInt64)
  | remove (member : μ)
  | removeByScore (min max : ScoreBorder σ)
  | removeByRank (start stop : Int)
  | popMin (count : Int)
  | popMax (count : Int)

section

variable [Inhabited σ]

/-- The set as a call leaves it, an insertion that panics included. -/
def after (z : SortedSet σ μ) : Call σ μ → Option (SortedSet σ μ)
  | .add member score draw =>
      match z.add member score (randomLevel draw) with
      | some (z, _) => some z
      | none => z.addPanicked member score
  | .remove member => (z.remove member).map Prod.fst
  | .removeByScore min max => (z.removeByScore min max).map Prod.fst
  | .removeByRank start stop => (z.removeByRank start stop).map Prod.fst
  | .popMin count => (z.popMin count).map Prod.fst
  | .popMax count => (z.popMax count).map Prod.fst

def afterAll (z : SortedSet σ μ) : List (Call σ μ) → Option (SortedSet σ μ)
  | [] => some z
  | c :: calls => (after z c).bind fun z => afterAll z calls

inductive Reachable [Inhabited μ] : SortedSet σ μ → Prop
  | make : Reachable make
  | call {z z' : SortedSet σ μ} (c : Call σ μ) (h : Reachable z) (hz : after z c = some z') :
      Reachable z'

variable [Inhabited μ] {z : SortedSet σ μ} {nodes : List Addr}

theorem make_sound : Sound (make : SortedSet σ μ) [] := ⟨makeSkipList_shape, by simp, rfl⟩

theorem Sound.after (h : Sound z nodes) (c : Call σ μ) : ∃ z' nodes', after z c = some z' ∧ Sound z' nodes' := by
  cases c with
  | add member score draw =>
      rw [SortedSet.after]
      by_cases hd : z.dict member = some score
      · have hsame : z.add member score (randomLevel draw) =
            some (⟨Function.update z.dict member (some score), z.skipList⟩, false) := by
          simp [SortedSet.add, hd]
        rw [hsame, ← hd, Function.update_eq_self]
        exact ⟨z, nodes, rfl, h⟩
      · by_cases hlevel : maxLevel < randomLevel draw
        · rw [h.add_panics hlevel hd]
          exact h.addPanicked member score
        · obtain ⟨z', b, nodes', ha, hsound, -⟩ :=
            h.add member score (one_le_randomLevel draw) (not_lt.mp hlevel)
          rw [ha]
          exact ⟨z', nodes', rfl, hsound⟩
  | remove member =>
      obtain ⟨z', b, nodes', hr, hsound⟩ := h.remove member
      exact ⟨z', nodes', by rw [SortedSet.after, hr]; rfl, hsound⟩
  | removeByScore min max => exact h.takesRow (takesRow_removeByScore h.shape min max)
  | removeByRank start stop => exact h.takesRow (takesRow_removeByRank h.shape start stop)
  | popMin count => exact h.takesRow (takesRow_popMin h.shape count)
  | popMax count => exact h.takesRow (takesRow_popMax h.shape count)

/-- No call of a reachable set leaves nothing, and all of them leave a sound one. -/
theorem Reachable.sound (h : Reachable z) : ∃ nodes, Sound z nodes := by
  induction h with
  | make => exact ⟨[], make_sound⟩
  | call c h hz ih =>
      obtain ⟨nodes, hsound⟩ := ih
      obtain ⟨z', nodes', hafter, hsound'⟩ := hsound.after c
      obtain rfl := Option.some.inj (hafter.symm.trans hz)
      exact ⟨nodes', hsound'⟩

theorem Reachable.afterAll (h : Reachable z) (calls : List (Call σ μ)) {z' : SortedSet σ μ}
    (hz : afterAll z calls = some z') : Reachable z' := by
  induction calls generalizing z with
  | nil => exact Option.some.inj hz ▸ h
  | cons c calls ih =>
      obtain ⟨z₁, hz₁, hrest⟩ := Option.bind_eq_some_iff.mp hz
      exact ih (.call c h hz₁) hrest

theorem Reachable.after (h : Reachable z) (c : Call σ μ) : ∃ z', after z c = some z' ∧ Reachable z' := by
  obtain ⟨nodes, hsound⟩ := h.sound
  obtain ⟨z', nodes', hz, -⟩ := hsound.after c
  exact ⟨z', hz, .call c h hz⟩

/-- The height is one of a level slice, nothing panics, and the dictionary and the list both have the
member with the score. -/
def AddsSafely (z : SortedSet σ μ) (member : μ) (score : σ) (draw : UInt64) : Prop :=
  (1 ≤ randomLevel draw ∧ randomLevel draw ≤ maxLevel) ∧
    ∃ z' b, z.add member score (randomLevel draw) = some (z', b) ∧ z'.dict member = some score ∧
      (member, score) ∈ z'.elements

/-- An insertion that panics leaves its member in the dictionary, where the next one finds it. -/
theorem addsSafely_iff (h : Reachable z) (member : μ) (score : σ) (draw : UInt64) :
    AddsSafely z member score draw ↔
      draw.toNat % 65535 ≠ 0 ∧ (z.dict member = some score → (member, score) ∈ z.elements) := by
  obtain ⟨nodes, hsound⟩ := h.sound
  rw [AddsSafely, ← randomLevel_le]
  have hpos := one_le_randomLevel draw
  constructor
  · rintro ⟨⟨-, hlevel⟩, z', b, hadd, -, hin⟩
    refine ⟨hlevel, fun hd => ?_⟩
    obtain ⟨z₁, b₁, nodes₁, hadd₁, -, -, hsame, -⟩ := hsound.add member score hpos hlevel
    rw [hadd₁, Option.some.injEq, Prod.mk.injEq] at hadd
    rwa [← hadd.1, hsame hd] at hin
  · rintro ⟨hlevel, hin⟩
    obtain ⟨z', b, nodes', hadd, hsound', hdict, hsame, hnew⟩ := hsound.add member score hpos hlevel
    refine ⟨⟨hpos, hlevel⟩, z', b, hadd, by rw [hdict, Function.update_self], ?_⟩
    by_cases hd : z.dict member = some score
    · rw [hsame hd]
      exact hin hd
    · obtain ⟨a, ha, hm, hs⟩ := hnew hd
      rw [hsound'.elements_eq, List.mem_map]
      exact ⟨a, ha, by rw [element, hm, hs]⟩

end

theorem addsSafely_first : AddsSafely (make : SortedSet Int String) "a" 7 65534 :=
  (addsSafely_iff .make "a" 7 65534).mpr ⟨by decide, by simp [make]⟩

/-- The height is 17, and the member is left in the dictionary only. -/
theorem not_addsSafely_zero : ¬ AddsSafely (make : SortedSet Int String) "a" 7 0 ∧
    ∃ z : SortedSet Int String, after make (.add "a" 7 0) = some z ∧ z.dict "a" = some 7 ∧ z.elements = [] := by
  have hlevel : randomLevel 0 = 17 := by
    rw [randomLevel, show (0 : UInt64).toNat % (2 ^ maxLevel - 1) = 0 from rfl, Nat.size_zero, maxLevel]
  refine ⟨?_, ?_⟩
  · rintro ⟨⟨-, hle⟩, -⟩
    rw [hlevel, maxLevel] at hle
    omega
  · rw [after, hlevel]
    exact ⟨_, rfl, by decide, by decide⟩

end SortedSet

end Traitor
