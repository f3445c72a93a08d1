import Mathlib.Data.List.Basic
import Traitor.Lib.SkipChain
import Traitor.Lib.Windows
import Traitor.SkipList

namespace Traitor.SkipList

open Lib.SkipChain Lib.Windows

variable {σ μ : Type}

def tall (s : SkipList σ μ) (i : Nat) (a : Addr) : Bool := i < s.height a

def linkAt (s : SkipList σ μ) (i : Nat) (a : Addr) : Option Addr × Int := (s.forward a i, s.span a i)

def Splits (cond : Int → Addr → Bool) (front back : List Addr) : Prop :=
  ∀ pre b post, front ++ back = pre ++ b :: post → pre ≠ [] →
    (cond pre.length b = true ↔ pre.length < front.length)

section

variable {s : SkipList σ μ} {cond : Int → Addr → Bool} {front back : List Addr}

theorem walk_isLast {i : Nat} (hlinks : Linked (tall s i) (linkAt s i) (front ++ back))
    (hcond : Splits cond front back) {pre rest : List Addr} {node : Addr}
    (hfront : front = pre ++ node :: rest) (hnode : tall s i node = true) {fuel : Nat}
    (hfuel : rest.length < fuel) :
    ∃ (u : Addr) (k : Nat), walk s cond i fuel node pre.length = some (u, (k : Int)) ∧
      IsLast (tall s i) front u k := by
  induction fuel generalizing pre rest node with
  | zero => omega
  | succ fuel ih =>
      have hheight : ¬ s.height node ≤ i := by simpa [tall] using hnode
      have hsplit : Linked (tall s i) (linkAt s i) (pre ++ node :: (rest ++ back)) := by
        simpa [hfront] using hlinks
      have hlink := linked_append _ _ _ hsplit hnode
      obtain ⟨hforward, hspan⟩ := Prod.mk.inj hlink
      rcases exists_reach (tall s i) rest with hnone | ⟨r₁, next, r₂, rfl, hnext, hshort⟩
      · have hlast : IsLast (tall s i) front node pre.length :=
          ⟨pre, rest, hfront, hnode, hnone, rfl⟩
        refine ⟨node, pre.length, ?_, hlast⟩
        rcases exists_reach (tall s i) back with hback | ⟨b₁, next, b₂, rfl, hnext, hshort⟩
        · rw [reach_none _ (by simpa [or_imp, forall_and] using ⟨hnone, hback⟩)] at hforward
          rw [walk, if_neg hheight, hforward]
        · rw [← List.append_assoc, reach_append_some _
            (by simpa [or_imp, forall_and] using ⟨hnone, hshort⟩) hnext] at hforward hspan
          have hstop := hcond (pre ++ node :: rest ++ b₁) next b₂ (by simp [hfront]) (by simp)
          have hrank : (pre.length : Int) + s.span node i =
              ((pre ++ node :: rest ++ b₁).length : Nat) := by
            rw [hspan]
            simp only [List.length_append, List.length_cons]
            omega
          rw [walk, if_neg hheight, hforward]
          simp only [hrank]
          rw [if_neg]
          rw [hstop, hfront]
          simp only [List.length_append, List.length_cons]
          omega
      · rw [List.append_assoc, List.cons_append, reach_append_some _ hshort hnext] at hforward hspan
        have hgo := hcond (pre ++ node :: r₁) next (r₂ ++ back) (by simp [hfront]) (by simp)
        have hrank : (pre.length : Int) + s.span node i = ((pre ++ node :: r₁).length : Nat) := by
          rw [hspan]
          simp only [List.length_append, List.length_cons]
          omega
        have hlt : (pre ++ node :: r₁).length < front.length := by
          rw [hfront]
          simp only [List.length_append, List.length_cons]
          omega
        rw [walk, if_neg hheight, hforward]
        simp only [hrank]
        rw [if_pos (hgo.mpr hlt)]
        apply @ih _ r₂ _ (by simp [hfront]) hnext
        simp only [List.length_append, List.length_cons] at hfuel
        omega

/-- What a search finds: on each level the last node of the front part and its rank. -/
def Found (s : SkipList σ μ) (front : List Addr) (n : Nat) (found : Nat → Addr × Int) : Prop :=
  (∀ i < n, ∃ k : Nat, IsLast (tall s i) front (found i).1 k ∧ (found i).2 = k) ∧
    ∀ i, n ≤ i → found i = (header, 0)

theorem search_found {n : Nat} (hlinks : ∀ i < n, Linked (tall s i) (linkAt s i) (front ++ back))
    (hcond : Splits cond front back) (pre : List Addr) {rest : List Addr} {node : Addr}
    (hfront : front = pre ++ node :: rest) (hnode : n ≤ s.height node)
    (hlength : (front.length : Int) ≤ s.length + 1) :
    ∃ found, search s cond n node pre.length = some found ∧ Found s front n found := by
  induction n generalizing pre rest node with
  | zero => exact ⟨_, rfl, by simp, fun _ _ => rfl⟩
  | succ n ih =>
      have hfuel : rest.length < s.length.toNat + 1 := by
        rw [hfront] at hlength
        simp only [List.length_append, List.length_cons] at hlength
        omega
      obtain ⟨u, k, hw, hlast⟩ := walk_isLast (hlinks n (Nat.lt_succ_self n)) hcond hfront
        (by simp only [tall, decide_eq_true_eq]; omega) hfuel
      obtain ⟨l₁, l₂, hsplit, hu, hshort, rfl⟩ := id hlast
      obtain ⟨found, hs, hlow, hhigh⟩ := ih (fun i hi => hlinks i (Nat.lt_succ_of_lt hi)) l₁ hsplit
        (Nat.le_of_lt (by simpa [tall] using hu))
      refine ⟨Function.update found n (u, (l₁.length : Int)), ?_, ?_, ?_⟩
      · simp [search, hw, hs]
      · intro i hi
        by_cases hin : i = n
        · subst hin
          exact ⟨l₁.length, by simpa using hlast, by simp⟩
        · rw [Function.update_of_ne hin]
          exact hlow i (by omega)
      · intro i hi
        rw [Function.update_of_ne (by omega)]
        exact hhigh i (by omega)

end

theorem shrink_spec (forward : Nat → Option Addr) {n : Nat} (hn : 1 ≤ n) :
    1 ≤ shrink forward n ∧ shrink forward n ≤ n ∧
      (∀ i, shrink forward n ≤ i → i < n → forward i = none) ∧
      (shrink forward n = 1 ∨ forward (shrink forward n - 1) ≠ none) := by
  induction n with
  | zero => omega
  | succ n ih =>
      cases n with
      | zero =>
          refine ⟨Nat.le_refl 1, Nat.le_refl 1, fun i hi hlt => ?_, Or.inl rfl⟩
          simp only [shrink] at hi
          omega
      | succ n =>
          rw [shrink]
          by_cases hf : forward (n + 1) = none
          · rw [if_pos hf]
            obtain ⟨h1, h2, h3, h4⟩ := ih (by omega)
            refine ⟨h1, by omega, fun i hi hlt => ?_, h4⟩
            by_cases hin : i = n + 1
            · exact hin ▸ hf
            · exact h3 i hi (by omega)
          · rw [if_neg hf]
            exact ⟨by omega, by omega, fun i hi hlt => by omega, Or.inr hf⟩

def Preds (s : SkipList σ μ) (front : List Addr) (update : Nat → Addr) : Prop :=
  ∀ i < s.level, ∃ k : Nat, IsLast (tall s i) (header :: front) (update i) k

theorem Found.preds {s : SkipList σ μ} {front : List Addr} {found : Nat → Addr × Int}
    (hf : Found s (header :: front) s.level found) : Preds s front (fun i => (found i).1) :=
  fun i hi => by
    obtain ⟨k, hlast, -⟩ := hf.1 i hi
    exact ⟨k, hlast⟩

variable [LinearOrder σ] [LinearOrder μ]

def Before (s : SkipList σ μ) (a b : Addr) : Prop :=
  s.score a < s.score b ∨ s.score a = s.score b ∧ s.member a < s.member b

/-- The nodes behind the header are those of the list of addresses. On every level
each link leads to the next node that is high enough and spans the ranks up to
it, the backward pointers lead from the tail to the front, and the nodes are
ordered by score and member. -/
structure Shape (s : SkipList σ μ) (nodes : List Addr) : Prop where
  nodup : (header :: nodes).Nodup
  fresh : ∀ a ∈ header :: nodes, a < s.fresh
  head : s.height header = maxLevel
  heights : ∀ a ∈ nodes, 1 ≤ s.height a ∧ s.height a ≤ s.level
  level : 1 ≤ s.level ∧ s.level ≤ maxLevel
  links : ∀ i < s.level, Linked (tall s i) (linkAt s i) (header :: nodes)
  above : ∀ i, s.level ≤ i → s.forward header i = none
  length : s.length = nodes.length
  backed : Backed s.backward s.tail none nodes
  sorted : nodes.Pairwise (Before s)
  highest : s.level = 1 ∨ ∃ a ∈ nodes, s.height a = s.level

theorem makeSkipList_shape [Inhabited σ] [Inhabited μ] :
    Shape (makeSkipList : SkipList σ μ) [] where
  nodup := by simp
  fresh := by simp [makeSkipList]
  head := by simp [makeSkipList]
  heights := by simp
  level := by simp [makeSkipList, maxLevel]
  links i hi := by simp [Linked, linkAt, makeSkipList, reach]
  above i hi := rfl
  length := rfl
  backed := rfl
  sorted := List.Pairwise.nil
  highest := Or.inl rfl

/-- A search from the header finds the end of the front part on every level. -/
theorem Shape.search {s : SkipList σ μ} {front back : List Addr} (h : Shape s (front ++ back))
    {cond : Int → Addr → Bool} (hcond : Splits cond (header :: front) back) :
    ∃ found, search s cond s.level header 0 = some found ∧ Found s (header :: front) s.level found := by
  have hlen := h.length
  simp only [List.length_append] at hlen
  exact search_found h.links hcond [] rfl (by rw [h.head]; exact h.level.2)
    (by simp only [List.length_cons]; omega)

/-- On the lowest level the last node of the front part is found. -/
theorem Found.zero {s : SkipList σ μ} {front back : List Addr} (h : Shape s (front ++ back))
    {found : Nat → Addr × Int} (hf : Found s (header :: front) s.level found) :
    (found 0).2 = front.length ∧ lastOr none front =
      (if (found 0).1 = header then none else some (found 0).1) ∧
      s.forward (found 0).1 0 = back.head? := by
  obtain ⟨k, hlast, hk⟩ := hf.1 0 h.level.1
  have hzero : Linked (tall s 0) (linkAt s 0) (header :: front ++ back) := h.links 0 h.level.1
  have hlink := isLast_link hlast hzero
  obtain ⟨l₁, l₂, hsplit, hu, hshort, rfl⟩ := hlast
  have htall : ∀ a ∈ front ++ back, tall s 0 a = true := fun a ha => by
    simpa [tall] using Nat.lt_of_succ_le (h.heights a ha).1
  have hnil : l₂ = [] := by
    cases l₂ with
    | nil => rfl
    | cons a l₂ =>
        have hmem : a ∈ front := by
          cases l₁ with
          | nil =>
              obtain ⟨-, rfl⟩ := List.cons.inj hsplit
              exact List.mem_cons_self
          | cons b l₁ =>
              obtain ⟨-, rfl⟩ := List.cons.inj hsplit
              simp
        have hs := hshort a List.mem_cons_self
        rw [htall a (List.mem_append_left _ hmem)] at hs
        simp at hs
  subst hnil
  have hlen : l₁.length = front.length := by simpa using (congrArg List.length hsplit).symm
  refine ⟨by rw [hk, hlen], ?_, ?_⟩
  · apply lastOr_cons hsplit
    have hnodup := h.nodup
    simp only [List.nodup_cons, List.mem_append, not_or] at hnodup
    exact hnodup.1.1
  · have hforward := (Prod.mk.inj hlink).1
    rw [hforward]
    cases back with
    | nil => rfl
    | cons b back =>
        rw [reach, if_pos (htall b (by simp))]
        rfl

theorem Shape.fresh_not_mem {s : SkipList σ μ} {nodes : List Addr} (h : Shape s nodes) :
    s.fresh ∉ header :: nodes := fun hm => Nat.lt_irrefl _ (h.fresh _ hm)

/-- With the levels the new node adds, the header spans the whole list on them. -/
theorem Shape.links_extended {s : SkipList σ μ} {nodes : List Addr} (h : Shape s nodes)
    {level i : Nat} (hi : i < max s.level level) :
    Linked (tall s i) (fun a => (s.forward a i, extendSpan s level a i)) (header :: nodes) := by
  by_cases hlow : i < s.level
  · refine linked_congr (h.links i hlow) (fun a _ => ?_)
    simp only [extendSpan, linkAt]
    rw [if_neg (by omega)]
  · have hshort : ∀ a ∈ nodes, tall s i a = false := fun a ha => by
      have := (h.heights a ha).2
      simp only [tall, decide_eq_false_iff_not]
      omega
    refine ⟨fun _ => ?_, ?_⟩
    · simp only [extendSpan, reach_none _ hshort, h.above i (by omega)]
      rw [if_pos ⟨by omega, by omega, trivial⟩, h.length]
    · have hnil : Linked (tall s i) (fun a => (s.forward a i, extendSpan s level a i)) [] := trivial
      simpa using (linked_short hshort).mpr hnil

theorem Found.isLast {s : SkipList σ μ} {front back : List Addr} (h : Shape s (front ++ back))
    {found : Nat → Addr × Int} (hf : Found s (header :: front) s.level found) {i : Nat}
    (hi : i < maxLevel) :
    ∃ k : Nat, IsLast (tall s i) (header :: front) (found i).1 k ∧ (found i).2 = k := by
  by_cases hlow : i < s.level
  · exact hf.1 i hlow
  · rw [hf.2 i (by omega)]
    refine ⟨0, ⟨[], front, rfl, ?_, fun a ha => ?_, rfl⟩, rfl⟩
    · simpa [tall, h.head] using hi
    · have := (h.heights a (List.mem_append_left _ ha)).2
      simp only [tall, decide_eq_false_iff_not]
      omega

theorem Shape.link_links {s : SkipList σ μ} {front back : List Addr} (h : Shape s (front ++ back))
    {found : Nat → Addr × Int} (hf : Found s (header :: front) s.level found) (member : μ)
    (score : σ) {level i : Nat} (hlevel : level ≤ maxLevel) (hi : i < max s.level level) :
    Linked (tall (link s member score level (fun i => (found i).1) (fun i => (found i).2)) i)
      (linkAt (link s member score level (fun i => (found i).1) (fun i => (found i).2)) i)
      (header :: front ++ s.fresh :: back) := by
  have hfresh := h.fresh_not_mem
  have hmax : i < maxLevel := by
    have := h.level.2
    omega
  have htall : ∀ a ∈ header :: (front ++ back),
      tall (link s member score level (fun i => (found i).1) (fun i => (found i).2)) i a =
        tall s i a := by
    intro a ha
    have hne : a ≠ s.fresh := fun he => hfresh (he ▸ ha)
    simp [tall, link, hne]
  obtain ⟨k, hlast, hk⟩ := hf.isLast h hmax
  obtain ⟨hzero, -, -⟩ := hf.zero h
  have hu : (found i).1 ≠ s.fresh := by
    intro he
    have hm := isLast_mem hlast
    rw [he] at hm
    exact hfresh (by
      rcases List.mem_cons.mp hm with hm | hm
      · simp [hm]
      · simp [hm])
  have hk' := isLast_lt hlast
  have hold := linked_tall_congr (h.links_extended hi) htall
  have hlast' := isLast_tall_congr hlast (fun a ha => htall a (by
    rcases List.mem_cons.mp ha with rfl | ha
    · simp
    · simp [ha]))
  rw [← List.cons_append] at hold
  have hother : ∀ a ∈ header :: front ++ back, a ≠ (found i).1 →
      linkAt (link s member score level (fun i => (found i).1) (fun i => (found i).2)) i a =
        (s.forward a i, extendSpan s level a i) := by
    intro a ha hne
    have hnf : a ≠ s.fresh := fun he => hfresh (he ▸ ha)
    by_cases hhigh : s.level ≤ i
    · have hah : a ≠ header := by rwa [hf.2 i hhigh] at hne
      simp [linkAt, link, extendSpan, hnf, hne, hah]
    · simp [linkAt, link, extendSpan, hnf, hne, hhigh]
  by_cases hil : i < level
  · apply linked_insert_tall hold hlast' (by simp [tall, link, hil]) h.nodup hother
    · simp only [linkAt, link, hu, Nat.not_le.mpr hil, if_false, if_true, Prod.mk.injEq, true_and]
      rw [hzero, hk]
      simp only [List.length_cons] at hk' ⊢
      omega
    · simp only [linkAt, link, Nat.not_le.mpr hil, if_false, if_true, Prod.mk.injEq, true_and]
      rw [hzero, hk]
      simp only [List.length_cons] at hk' ⊢
      omega
  · have hlow : i < s.level := by omega
    apply linked_insert_short hold hlast' (by simpa [tall, link] using hil) h.nodup hother
    simp [linkAt, link, extendSpan, hu, Nat.not_lt.mp hil, hlow, hil]

theorem Shape.link_backed {s : SkipList σ μ} {front back : List Addr} (h : Shape s (front ++ back))
    {found : Nat → Addr × Int} (hf : Found s (header :: front) s.level found) (member : μ)
    (score : σ) (level : Nat) :
    Backed (link s member score level (fun i => (found i).1) (fun i => (found i).2)).backward
      (link s member score level (fun i => (found i).1) (fun i => (found i).2)).tail none
      (front ++ s.fresh :: back) := by
  obtain ⟨-, hlast, hnext⟩ := hf.zero h
  have hfresh := h.fresh_not_mem
  simp only [List.mem_cons, List.mem_append, not_or] at hfresh
  have hnodup := h.nodup
  simp only [List.nodup_cons, List.nodup_append] at hnodup
  cases back with
  | nil =>
      refine backed_replace h.backed (fun a ha => ?_) ⟨?_, ?_⟩
      · have hne : a ≠ s.fresh := fun he => hfresh.2.1 (he ▸ ha)
        simp [link, hnext, hne]
      · simp [link, hnext, hlast]
      · simp [link, hnext, Backed]
  | cons b back =>
      have hb : b ≠ s.fresh := fun he => hfresh.2.2 (by simp [he])
      have hback := backed_drop h.backed
      refine backed_replace h.backed (fun a ha => ?_) ⟨?_, ?_, ?_⟩
      · have hne : a ≠ s.fresh := fun he => hfresh.2.1 (he ▸ ha)
        have hab : a ≠ b := hnodup.2.2.2 a ha b (by simp)
        simp [link, hnext, hne, hab]
      · simp [link, hnext, hlast, Ne.symm hb]
      · simp [link, hnext]
      · have htail : (link s member score level (fun i => (found i).1)
            (fun i => (found i).2)).tail = s.tail := by simp [link, hnext]
        rw [htail]
        refine backed_congr hback.2 (fun a ha => ?_)
        have hne : a ≠ s.fresh := fun he => hfresh.2.2 (by simp [← he, ha])
        have hab : a ≠ b := by
          rintro rfl
          exact (List.nodup_cons.mp hnodup.2.2.1).1 ha
        simp [link, hnext, hne, hab]

theorem Shape.link {s : SkipList σ μ} {front back : List Addr} (h : Shape s (front ++ back))
    {found : Nat → Addr × Int} (hf : Found s (header :: front) s.level found) {member : μ}
    {score : σ} {level : Nat} (hpos : 1 ≤ level) (hlevel : level ≤ maxLevel)
    (hfront : ∀ a ∈ front, s.score a < score ∨ s.score a = score ∧ s.member a < member)
    (hback : ∀ a ∈ back, score < s.score a ∨ score = s.score a ∧ member < s.member a) :
    Shape (link s member score level (fun i => (found i).1) (fun i => (found i).2))
      (front ++ s.fresh :: back) := by
  have hfresh := h.fresh_not_mem
  have hne : ∀ a ∈ header :: (front ++ back), a ≠ s.fresh := fun a ha he => hfresh (he ▸ ha)
  have hmem : ∀ a, a ∈ front ++ s.fresh :: back ↔ a = s.fresh ∨ a ∈ front ++ back := by
    intro a
    simp only [List.mem_append, List.mem_cons]
    tauto
  refine ⟨?_, ?_, ?_, ?_, ?_, ?_, ?_, ?_, h.link_backed hf member score level, ?_, ?_⟩
  · have hperm : (header :: (front ++ s.fresh :: back)).Perm (s.fresh :: header :: (front ++ back)) :=
      (List.perm_middle.cons header).trans (List.Perm.swap _ _ _)
    exact hperm.nodup_iff.mpr (List.nodup_cons.mpr ⟨hfresh, h.nodup⟩)
  · intro a ha
    have hcase : a = s.fresh ∨ a ∈ header :: (front ++ back) := by
      rcases List.mem_cons.mp ha with rfl | ha
      · exact Or.inr List.mem_cons_self
      · exact ((hmem a).mp ha).imp id (List.mem_cons_of_mem _)
    rcases hcase with rfl | ha
    · exact Nat.lt_succ_self _
    · exact Nat.lt_succ_of_lt (h.fresh a ha)
  · simp [SkipList.link, hne header List.mem_cons_self, h.head]
  · intro a ha
    rcases (hmem a).mp ha with rfl | ha
    · simp only [SkipList.link, Function.update_self]
      omega
    · have := h.heights a ha
      simp only [SkipList.link, Function.update_of_ne (hne a (List.mem_cons_of_mem _ ha))]
      omega
  · have := h.level
    simp only [SkipList.link]
    omega
  · intro i hi
    exact h.link_links hf member score hlevel hi
  · intro i hi
    simp only [SkipList.link] at hi ⊢
    rw [if_pos (by omega), if_neg (hne header List.mem_cons_self)]
    exact h.above i (by omega)
  · have hlen := h.length
    simp only [SkipList.link, List.length_append, List.length_cons] at hlen ⊢
    omega
  · have hsorted := List.pairwise_append.mp h.sorted
    have hold : ∀ a ∈ front ++ back, ∀ b ∈ front ++ back, Before s a b →
        Before (SkipList.link s member score level (fun i => (found i).1)
          (fun i => (found i).2)) a b := by
      intro a ha b hb hab
      simpa [Before, SkipList.link, hne a (List.mem_cons_of_mem _ ha),
        hne b (List.mem_cons_of_mem _ hb)] using hab
    refine List.pairwise_append.mpr ⟨?_, List.pairwise_cons.mpr ⟨?_, ?_⟩, ?_⟩
    · exact hsorted.1.imp_of_mem fun ha hb => hold _ (by simp [ha]) _ (by simp [hb])
    · intro b hb
      have hbn := hne b (by simp [hb])
      simpa [Before, SkipList.link, hbn] using hback b hb
    · exact hsorted.2.1.imp_of_mem fun ha hb => hold _ (by simp [ha]) _ (by simp [hb])
    · intro a ha b hb
      have han := hne a (by simp [ha])
      rcases List.mem_cons.mp hb with rfl | hb
      · simpa [Before, SkipList.link, han] using hfront a ha
      · exact hold a (by simp [ha]) b (by simp [hb]) (hsorted.2.2 a ha b hb)
  · by_cases hl : s.level < level
    · refine Or.inr ⟨s.fresh, (hmem _).mpr (Or.inl rfl), ?_⟩
      simp only [SkipList.link, Function.update_self]
      omega
    · rcases h.highest with h1 | ⟨a, ha, hh⟩
      · left
        simp only [SkipList.link]
        omega
      · refine Or.inr ⟨a, (hmem a).mpr (Or.inr ha), ?_⟩
        simp only [SkipList.link, Function.update_of_ne (hne a (List.mem_cons_of_mem _ ha)), hh]
        omega

section

variable {s : SkipList σ μ} {front back : List Addr} {x : Addr} {update : Nat → Addr}

theorem Shape.not_mem (h : Shape s (front ++ x :: back)) :
    x ≠ header ∧ x ∉ front ∧ x ∉ back ∧ (header :: (front ++ back)).Nodup := by
  have hperm : (header :: (front ++ x :: back)).Perm (x :: header :: (front ++ back)) :=
    (List.perm_middle.cons header).trans (List.Perm.swap _ _ _)
  have hnodup := List.nodup_cons.mp (hperm.nodup_iff.mp h.nodup)
  simp only [List.mem_cons, List.mem_append, not_or] at hnodup
  exact ⟨hnodup.1.1, hnodup.1.2.1, hnodup.1.2.2, hnodup.2⟩

theorem Shape.forward_eq (h : Shape s (front ++ x :: back)) (hp : Preds s front update) {i : Nat}
    (hi : i < s.level) : s.forward (update i) i = some x ↔ tall s i x = true := by
  obtain ⟨k, hlast⟩ := hp i hi
  have hlinks : Linked (tall s i) (linkAt s i) (header :: front ++ x :: back) := h.links i hi
  exact isLast_link_eq hlast hlinks h.not_mem.2.2.1

theorem Shape.removable (h : Shape s (front ++ x :: back)) (hp : Preds s front update) :
    removable s x update = true := by
  simp only [SkipList.removable, Bool.and_eq_true, decide_eq_true_eq, List.all_eq_true,
    List.mem_range, Bool.or_eq_true]
  refine ⟨Nat.lt_of_succ_le (h.heights x (by simp)).1, fun i hi => ⟨?_, ?_⟩⟩
  · obtain ⟨k, l₁, l₂, -, hu, -⟩ := hp i hi
    simpa [tall] using hu
  · by_cases hx : s.forward (update i) i = some x
    · right
      simpa [tall] using (h.forward_eq hp hi).mp hx
    · exact Or.inl hx

theorem Shape.unlink_links (h : Shape s (front ++ x :: back)) (hp : Preds s front update) {i : Nat}
    (hi : i < s.level) :
    Linked (tall s i) (linkAt (unlink s x update) i) (header :: front ++ back) := by
  obtain ⟨k, hlast⟩ := hp i hi
  have hlinks : Linked (tall s i) (linkAt s i) (header :: front ++ x :: back) := h.links i hi
  have hother : ∀ a ∈ header :: front ++ back, a ≠ update i →
      linkAt (unlink s x update) i a = linkAt s i a := by
    intro a _ hne
    simp [linkAt, unlink, hne]
  have hiff := h.forward_eq hp hi
  by_cases hx : tall s i x = true
  · apply linked_remove_tall hlinks hlast hx h.not_mem.2.2.2 hother
    simp [linkAt, unlink, hi, hiff.mpr hx]
  · apply linked_remove_short hlinks hlast (by simpa using hx) h.not_mem.2.2.2 hother
    have hn : ¬ s.forward (update i) i = some x := fun he => hx (hiff.mp he)
    simp [linkAt, unlink, hi, hn]

theorem Shape.next (h : Shape s (front ++ x :: back)) : s.forward x 0 = back.head? := by
  have hx : tall s 0 x = true := by simpa [tall] using Nat.lt_of_succ_le (h.heights x (by simp)).1
  have hlinks : Linked (tall s 0) (linkAt s 0) (header :: front ++ x :: back) := h.links 0 h.level.1
  have hlink := linked_append _ _ _ hlinks hx
  rw [show s.forward x 0 = (linkAt s 0 x).1 from rfl, hlink]
  cases back with
  | nil => rfl
  | cons b back =>
      have hb : tall s 0 b = true := by
        simpa [tall] using Nat.lt_of_succ_le (h.heights b (by simp)).1
      rw [reach, if_pos hb]
      rfl

theorem Shape.unlink_backed (h : Shape s (front ++ x :: back)) :
    Backed (unlink s x update).backward (unlink s x update).tail none (front ++ back) := by
  obtain ⟨-, hxf, hxb, hnodup⟩ := h.not_mem
  have hnext := h.next
  have hx := backed_drop h.backed
  cases back with
  | nil =>
      refine backed_replace h.backed (fun a ha => ?_) ?_
      · simp [unlink, hnext]
      · simpa [unlink, hnext, Backed] using hx.1
  | cons b back =>
      have hbf : ∀ a ∈ front, a ≠ b := by
        rintro a ha rfl
        simp only [List.nodup_cons, List.nodup_append] at hnodup
        exact hnodup.2.2.2 a ha a (by simp) rfl
      have htail : (unlink s x update).tail = s.tail := by simp [unlink, hnext]
      refine backed_replace h.backed (fun a ha => ?_) ⟨?_, ?_⟩
      · simp [unlink, hnext, hbf a ha]
      · simpa [unlink, hnext] using hx.1
      · rw [htail]
        refine backed_congr hx.2.2 (fun a ha => ?_)
        have hab : a ≠ b := by
          rintro rfl
          simp only [List.nodup_cons, List.nodup_append] at hnodup
          exact hnodup.2.2.1.1 ha
        simp [unlink, hnext, hab]

theorem Shape.unlink (h : Shape s (front ++ x :: back)) (hp : Preds s front update) :
    Shape (unlink s x update) (front ++ back) := by
  obtain ⟨h1, h2, h3, h4⟩ := shrink_spec (fun i => (SkipList.unlink s x update).forward header i)
    h.level.1
  have hlevel : (SkipList.unlink s x update).level =
      shrink (fun i => (SkipList.unlink s x update).forward header i) s.level := rfl
  rw [← hlevel] at h1 h2 h3 h4
  have hsub : ∀ a ∈ front ++ back, a ∈ front ++ x :: back := by
    intro a ha
    simp only [List.mem_append, List.mem_cons] at ha ⊢
    tauto
  have hhead : ∀ i, i < s.level → tall s i header = true := by
    intro i hi
    have := h.level.2
    simp only [tall, h.head, decide_eq_true_eq]
    omega
  have hlinks : ∀ i < s.level, (SkipList.unlink s x update).forward header i =
      (reach (tall s i) (front ++ back)).1 := fun i hi =>
    congrArg Prod.fst ((h.unlink_links hp hi).1 (hhead i hi))
  have hheights : ∀ a ∈ front ++ back, s.height a ≤ (SkipList.unlink s x update).level := by
    intro a ha
    by_contra hlt
    have hle := (h.heights a (hsub a ha)).2
    have hi : (SkipList.unlink s x update).level < s.level := by omega
    have hnone := reach_eq_none _ ((hlinks _ hi).symm.trans (h3 _ (Nat.le_refl _) hi)) a ha
    simp only [tall, decide_eq_false_iff_not] at hnone
    omega
  refine ⟨h.not_mem.2.2.2, ?_, h.head, ?_, ?_, ?_, ?_, ?_, h.unlink_backed, ?_, ?_⟩
  · intro a ha
    rcases List.mem_cons.mp ha with rfl | ha
    · exact h.fresh _ List.mem_cons_self
    · exact h.fresh _ (List.mem_cons_of_mem _ (hsub a ha))
  · exact fun a ha => ⟨(h.heights a (hsub a ha)).1, hheights a ha⟩
  · have := h.level.2
    omega
  · exact fun i hi => h.unlink_links hp (by omega)
  · intro i hi
    by_cases hlow : i < s.level
    · exact h3 i hi hlow
    · simp only [SkipList.unlink]
      rw [if_neg (by omega)]
      exact h.above i (by omega)
  · have hlen := h.length
    simp only [SkipList.unlink, List.length_append, List.length_cons] at hlen ⊢
    omega
  · exact h.sorted.sublist ((List.sublist_cons_self _ _).append_left _)
  · apply h4.imp id
    intro hne
    have hi : (SkipList.unlink s x update).level - 1 < s.level := by omega
    rw [hlinks _ hi] at hne
    obtain ⟨b, hb⟩ := Option.ne_none_iff_exists'.mp hne
    obtain ⟨hmem, htall⟩ := reach_mem _ hb
    have hle := hheights b hmem
    simp only [tall, decide_eq_true_eq] at htall
    exact ⟨b, hmem, show s.height b = _ by omega⟩

theorem Preds.unlink (h : Shape s (front ++ x :: back)) (hp : Preds s front update) :
    Preds (SkipList.unlink s x update) front update := by
  intro i hi
  have hle := (shrink_spec (fun i => (SkipList.unlink s x update).forward header i) h.level.1).2.1
  exact hp i (Nat.lt_of_lt_of_le hi hle)

/-- A run of removals takes away the first nodes behind the front part. -/
theorem removeRun_shape (cond : Nat → Addr → Bool) {rest : List Addr}
    (h : Shape s (front ++ rest)) (hp : Preds s front update) {fuel : Nat}
    (hfuel : rest.length < fuel) (removed : Nat) :
    ∃ s', removeRun update cond fuel s rest.head? removed =
        some (s', (takeRun cond removed rest).map fun a => (s.member a, s.score a)) ∧
      Shape s' (front ++ rest.drop (takeRun cond removed rest).length) ∧
      s'.member = s.member ∧ s'.score = s.score := by
  induction fuel generalizing s rest removed with
  | zero => omega
  | succ fuel ih =>
      cases rest with
      | nil => exact ⟨s, rfl, h, rfl, rfl⟩
      | cons x rest =>
          rw [takeRun]
          by_cases hc : cond removed x = true
          · have hnext := h.next
            obtain ⟨s', hr, hs, hm, hsc⟩ := ih (h.unlink hp) (hp.unlink h)
              (Nat.lt_of_succ_lt_succ hfuel) (removed + 1)
            rw [if_pos hc]
            refine ⟨s', ?_, hs, hm, hsc⟩
            have hfields : (SkipList.unlink s x update).member = s.member ∧
                (SkipList.unlink s x update).score = s.score := ⟨rfl, rfl⟩
            simp [removeRun, hc, removeNode, h.removable hp, hnext, hr, hfields]
          · rw [if_neg hc]
            refine ⟨s, ?_, h, rfl, rfl⟩
            simp [removeRun, hc]

end

end Traitor.SkipList
