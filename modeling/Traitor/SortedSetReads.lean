import Traitor.SortedSetRefinement

namespace Traitor

open Lib.SkipChain Lib.Windows Database

attribute [local instance] bytesOrder

namespace Database.ZSet

variable {σ : Type} [LinearOrder σ] {nodes below inside above : List (Node σ)} {min max : ScoreBorder σ}

abbrev Ranged (min max : ScoreBorder σ) (nodes below inside above : List (Node σ)) : Prop :=
  Window (fun a => min.less a.score) (fun a => max.greater a.score) nodes below inside above

theorem dropWhile_less (hr : Ranged min max nodes below inside above) :
    nodes.dropWhile (fun a => !min.less a.score) = inside ++ above := by
  rw [hr.eq]
  apply dropWhile_split
  · intro a ha
    rw [hr.below a ha, Bool.not_false]
  · intro a ha
    rw [(List.mem_append.mp ha).elim (fun ha => (hr.inside a ha).1) fun ha => (hr.above a ha).1, Bool.not_true]

theorem fromFirst_window (hr : Ranged min max nodes below inside above) (hin : hasInRange nodes min max = true)
    (hne : inside ≠ []) : fromFirst nodes min max = inside ++ above := by
  obtain ⟨a, inside, rfl⟩ := List.exists_cons_of_ne_nil hne
  rw [fromFirst, if_pos hin, dropWhile_less hr]
  exact if_pos (hr.inside a List.mem_cons_self).2

theorem fromFirst_nothing (hr : Ranged min max nodes below inside above)
    (hnone : hasInRange nodes min max = true → inside = []) : fromFirst nodes min max = [] := by
  rw [fromFirst, dropWhile_less hr]
  split
  · rename_i hin
    rw [hnone hin, List.nil_append]
    cases above with
    | nil => rfl
    | cons a above => exact if_neg (by simp [(hr.above a List.mem_cons_self).2])
  · rfl

theorem fromLast_window (hr : Ranged min max nodes below inside above)
    (hgreater : nodes.Pairwise fun a b => max.greater b.score = true → max.greater a.score = true)
    (hin : hasInRange nodes min max = true) (hne : inside ≠ []) :
    fromLast nodes min max = (below ++ inside).reverse := by
  have htake : nodes.takeWhile (fun a => max.greater a.score) = below ++ inside := by
    rw [hr.eq, ← List.append_assoc]
    apply takeWhile_split
    · intro a ha
      exact (List.mem_append.mp ha).elim (hr.greater_below hne hgreater a) fun ha => (hr.inside a ha).2
    · intro a ha
      exact (hr.above a ha).2
  obtain ⟨front, a, rfl⟩ := List.eq_nil_or_concat inside |>.resolve_left hne
  rw [fromLast, if_pos hin, htake, List.concat_eq_append, ← List.append_assoc, List.reverse_append]
  exact if_pos (hr.inside a (by simp)).1

theorem fromLast_nothing (hr : Ranged min max nodes below inside above)
    (hnone : hasInRange nodes min max = true → inside = []) : fromLast nodes min max = [] := by
  rw [fromLast]
  split
  · rename_i hin
    have hless (a : Node σ) (ha : a ∈ nodes.takeWhile fun a => max.greater a.score) : min.less a.score = false := by
      have hpass := List.mem_takeWhile_imp ha
      have hmem := (List.takeWhile_sublist _).subset ha
      rw [hr.eq, hnone hin, List.nil_append] at hmem
      apply (List.mem_append.mp hmem).elim (hr.below a)
      intro habove
      rw [(hr.above a habove).2] at hpass
      cases hpass
    cases hlast : (nodes.takeWhile fun a => max.greater a.score).reverse with
    | nil => rfl
    | cons a rest =>
        have ha : a ∈ nodes.takeWhile fun a => max.greater a.score := by
          rw [← List.mem_reverse, hlast]
          exact List.mem_cons_self
        exact if_neg (by simp [hless a ha])
  · rfl

theorem forEachByScore_eq (min max : ScoreBorder σ) (limit : Int) (nodes : List (Node σ)) :
    forEachByScore min max limit nodes =
      limited limit (onward (fun a => min.less a.score && max.greater a.score) nodes) := by
  cases nodes with
  | nil => rw [onward, limited_nil]; rfl
  | cons a nodes => rfl

end Database.ZSet

namespace SortedSet

open SkipList

variable {σ : Type} [LinearOrder σ] {s : SortedSet σ Bytes} {z : ZSet σ} {min max : ScoreBorder σ}

theorem Mirrors.len (h : Mirrors s z) : s.len = z.len := by
  rw [SortedSet.len, h.sound.shape.length, ZSet.len, h.nodes, List.length_map]

theorem Mirrors.elements (h : Mirrors s z) : s.elements = z.nodes.map pair := by
  rw [SortedSet.elements, h.nodes, List.map_map]
  rfl

theorem Mirrors.range (h : Mirrors s z) (start stop : Int) (desc : Bool) :
    s.range start stop desc = (z.range start stop desc).map (List.map pair) := by
  rw [ZSet.range, ← h.len]
  by_cases hstart : start < 0 ∨ s.len ≤ start
  · rw [if_pos hstart, SortedSet.range, SortedSet.forEach, if_pos hstart, ite_self]
    rfl
  · by_cases hstop : stop < start ∨ s.len < stop
    · rw [if_neg hstart, if_pos hstop, SortedSet.range, SortedSet.forEach, if_neg hstart, if_pos hstop, ite_self]
      rfl
    · rw [if_neg hstart, if_neg hstop, range_slice h.sound.shape (by omega) (by omega), h.elements, slice,
        show stop.toNat - start.toNat = (stop - start).toNat by omega]
      cases desc with
      | false => simp [List.map_take, List.map_drop]
      | true => simp [List.map_take, List.map_drop, List.map_reverse]

theorem visit_countLoop (min max : ScoreBorder σ) (nodes : List (Node σ)) (i : Int) :
    visit (counter min max) (nodes.map pair) i = i + ZSet.countLoop min max nodes := by
  induction nodes generalizing i with
  | nil => exact (Int.add_zero i).symm
  | cons a nodes ih =>
      rw [List.map_cons, visit, ZSet.countLoop]
      by_cases hless : min.less a.score = false
      · have he : counter min max i (pair a) = (i, true) := if_pos hless
        rw [he, if_pos rfl, if_pos hless, ih]
      · rw [if_neg hless]
        by_cases hgreater : max.greater a.score = false
        · have he : counter min max i (pair a) = (i, false) := (if_neg hless).trans (if_pos hgreater)
          rw [he, if_neg Bool.false_ne_true, if_pos hgreater, Int.add_zero]
        · have he : counter min max i (pair a) = (i + 1, true) := (if_neg hless).trans (if_neg hgreater)
          rw [he, if_pos rfl, if_neg hgreater, ih]
          omega

theorem Mirrors.nil_iff (h : Mirrors s z) : z.nodes = [] ↔ s.skipList.nodes = [] := by
  rw [h.nodes, List.map_eq_nil_iff]

theorem Mirrors.count (h : Mirrors s z) (min max : ScoreBorder σ) : s.count min max = z.count min max := by
  rw [ZSet.count]
  by_cases hnil : z.nodes = []
  · have hshape := h.sound.shape
    rw [h.nil_iff.mp hnil] at hshape
    rw [if_pos hnil, count_empty hshape]
  · rw [if_neg hnil, count_eq_visit h.sound.shape fun hempty => hnil (h.nil_iff.mpr hempty), h.elements,
      visit_countLoop, Int.zero_add]

theorem Mirrors.hasInRange (h : Mirrors s z) (min max : ScoreBorder σ) :
    s.skipList.hasInRange min max = ZSet.hasInRange z.nodes min max := by
  rw [SkipList.hasInRange, ZSet.hasInRange, h.sound.shape.first_eq, h.sound.shape.tail_eq, h.nodes,
    List.head?_map, List.getLast?_map]
  split
  · rfl
  · cases s.skipList.nodes.head? with
    | none => rfl
    | some first => cases s.skipList.nodes.getLast? <;> rfl

/-- Both loops begin at the same node. -/
theorem rangeByScore_of_nodes {l : List Addr} {desc : Bool} {offset limit : Int}
    (hleads : Leads s.skipList desc l) (hlength : l.length ≤ s.skipList.length.toNat)
    (hstart : (if desc then s.skipList.getLastInScoreRange min max
      else s.skipList.getFirstInScoreRange min max) = some l.head?)
    (hnodes : (if desc then ZSet.fromLast z.nodes min max else ZSet.fromFirst z.nodes min max) =
      l.map s.skipList.node) (hpage : ¬ (limit = 0 ∨ offset < 0)) :
    s.rangeByScore min max offset limit desc = some ((z.rangeByScore min max offset limit desc).map pair) := by
  have hpairs : (l.map s.skipList.element).drop offset.toNat = ((l.map s.skipList.node).drop offset.toNat).map pair := by
    rw [List.map_drop, List.map_map]
    rfl
  rw [rangeByScore_of_start hleads hlength hstart (by omega) (by omega), ZSet.rangeByScore, if_neg hpage,
    ZSet.forEachByScore_eq, hnodes, hpairs, onward_map, limited_map]
  rfl

section

variable {below inside above : List Addr} {offset limit : Int}

theorem Mirrors.ranged (h : Mirrors s z)
    (hr : SkipList.Ranged s.skipList min max s.skipList.nodes below inside above) :
    ZSet.Ranged min max z.nodes (below.map s.skipList.node) (inside.map s.skipList.node)
      (above.map s.skipList.node) := by
  rw [h.nodes]
  exact Window.map (f := s.skipList.node) hr

theorem Mirrors.rangeByScore_window (h : Mirrors s z)
    (hr : SkipList.Ranged s.skipList min max s.skipList.nodes below inside above)
    (hin : ZSet.hasInRange z.nodes min max = true) (hne : inside ≠ []) (hpage : ¬ (limit = 0 ∨ offset < 0))
    (desc : Bool) :
    s.rangeByScore min max offset limit desc = some ((z.rangeByScore min max offset limit desc).map pair) := by
  have hshape := h.sound.shape
  have hlengths := congrArg List.length hr.eq
  simp only [List.length_append] at hlengths
  have hlength : s.skipList.length.toNat = s.skipList.nodes.length := by rw [hshape.length, Int.toNat_natCast]
  have hne' : inside.map s.skipList.node ≠ [] := fun he => hne (List.map_eq_nil_iff.mp he)
  cases desc with
  | false =>
      have hsplit : Shape s.skipList (below ++ (inside ++ above)) := hr.eq ▸ hshape
      apply rangeByScore_of_nodes hsplit.leads _ _ _ hpage
      · rw [List.length_append]
        omega
      · rw [List.head?_append_of_ne_nil _ hne, if_neg Bool.false_ne_true, hshape.getFirstInScoreRange hr,
          h.hasInRange, if_pos hin]
      · rw [List.map_append]
        exact ZSet.fromFirst_window (h.ranged hr) hin hne'
  | true =>
      have hsplit : Shape s.skipList ((below ++ inside) ++ above) := by
        rw [List.append_assoc]
        exact hr.eq ▸ hshape
      have hgreater : z.nodes.Pairwise fun a b => max.greater b.score = true → max.greater a.score = true := by
        rw [h.nodes]
        exact List.pairwise_map.mpr (greater_pairwise hshape max)
      apply rangeByScore_of_nodes hsplit.leads_back _ _ _ hpage
      · rw [List.length_reverse, List.length_append]
        omega
      · rw [List.head?_reverse, List.getLast?_append_of_ne_nil _ hne, if_pos rfl, hshape.getLastInScoreRange hr,
          h.hasInRange, if_pos hin]
      · rw [List.map_reverse, List.map_append]
        exact ZSet.fromLast_window (h.ranged hr) hgreater hin hne'

/-- With no node in range neither loop begins. -/
theorem Mirrors.rangeByScore_nothing (h : Mirrors s z)
    (hr : SkipList.Ranged s.skipList min max s.skipList.nodes below inside above)
    (hnone : ZSet.hasInRange z.nodes min max = true → inside = []) (hpage : ¬ (limit = 0 ∨ offset < 0))
    (desc : Bool) :
    s.rangeByScore min max offset limit desc = some ((z.rangeByScore min max offset limit desc).map pair) := by
  have hshape := h.sound.shape
  have hnone' : ZSet.hasInRange z.nodes min max = true → inside.map s.skipList.node = [] :=
    fun hin => List.map_eq_nil_iff.mpr (hnone hin)
  apply rangeByScore_of_nodes (l := []) trivial (Nat.zero_le _) _ _ hpage
  · rw [hshape.getFirstInScoreRange hr, hshape.getLastInScoreRange hr, h.hasInRange]
    by_cases hin : ZSet.hasInRange z.nodes min max = true
    · rw [if_pos hin, if_pos hin, hnone hin, List.getLast?_nil, List.head?_nil, ite_self]
    · rw [if_neg hin, if_neg hin, ite_self, List.head?_nil]
  · rw [ZSet.fromFirst_nothing (h.ranged hr) hnone', ZSet.fromLast_nothing (h.ranged hr) hnone', ite_self]
    rfl

theorem Mirrors.rangeByScore (h : Mirrors s z) (min max : ScoreBorder σ) (offset limit : Int) (desc : Bool) :
    s.rangeByScore min max offset limit desc = some ((z.rangeByScore min max offset limit desc).map pair) := by
  by_cases hpage : limit = 0 ∨ offset < 0
  · rw [SortedSet.rangeByScore, ZSet.rangeByScore, if_pos hpage, if_pos hpage]
    rfl
  obtain ⟨below, inside, above, hr⟩ := h.sound.shape.exists_ranged min max
  by_cases hin : ZSet.hasInRange z.nodes min max = true ∧ inside ≠ []
  · exact h.rangeByScore_window hr hin.1 hin.2 hpage desc
  · exact h.rangeByScore_nothing hr (fun hr => not_not.mp fun hne => hin ⟨hr, hne⟩) hpage desc

end

theorem foldl_max_le (heights : List Nat) (m n : Nat) :
    heights.foldl Max.max m ≤ n ↔ m ≤ n ∧ ∀ k ∈ heights, k ≤ n := by
  induction heights generalizing m with
  | nil => simp
  | cons k heights ih => rw [List.foldl_cons, ih, max_le_iff, List.forall_mem_cons, and_assoc]

theorem Mirrors.level (h : Mirrors s z) : ZSet.level z.nodes = s.skipList.level := by
  have hshape := h.sound.shape
  have hiff (n : Nat) : ZSet.level z.nodes ≤ n ↔ 1 ≤ n ∧ ∀ a ∈ s.skipList.nodes, s.skipList.height a ≤ n := by
    rw [ZSet.level, foldl_max_le, h.nodes, List.map_map, List.forall_mem_map]
    rfl
  apply le_antisymm
  · exact (hiff _).mpr ⟨hshape.level.1, fun a ha => (hshape.heights a ha).2⟩
  · obtain ⟨hpos, hheights⟩ := (hiff _).mp (le_refl _)
    rcases hshape.highest with hone | ⟨a, ha, hheight⟩
    · rw [hone]
      exact hpos
    · rw [← hheight]
      exact hheights a ha

omit [LinearOrder σ] in
/-- What a search ends with on a level is the last node of it. -/
theorem lastOfLevel_eq {sk : SkipList σ Bytes} {front : List Addr} {i k : Nat} {u : Addr}
    (hheader : sk.member header = default) (h : IsLast (tall sk i) (header :: front) u k) :
    ZSet.lastOfLevel i (front.map sk.node) = (sk.member u, k) := by
  obtain ⟨l₁, l₂, heq, htall, hshort, rfl⟩ := h
  have hnone (n : Nat) : ((l₂.map sk.node).zipIdx n).filter (fun a => decide (i < a.1.height)) = [] := by
    apply List.filter_eq_nil_iff.mpr
    intro a ha
    obtain ⟨b, hb, hnode⟩ := List.mem_map.mp (List.fst_mem_of_mem_zipIdx ha)
    rw [← hnode, Bool.not_eq_true]
    exact hshort b hb
  rw [ZSet.lastOfLevel]
  cases l₁ with
  | nil =>
      obtain ⟨rfl, rfl⟩ := List.cons.inj heq
      rw [hnone, hheader]
      rfl
  | cons b l₁ =>
      rw [List.cons_append] at heq
      obtain ⟨rfl, rfl⟩ := List.cons.inj heq
      have hcons (n : Nat) (l : List (Node σ × Nat)) :
          ((sk.node u, n) :: l).filter (fun a => decide (i < a.1.height)) =
            (sk.node u, n) :: l.filter fun a => decide (i < a.1.height) := List.filter_cons_of_pos htall
      rw [List.map_append, List.map_cons, List.zipIdx_append, List.zipIdx_cons, List.filter_append, hcons, hnone,
        List.getLast?_concat]
      simp [node]

omit [LinearOrder σ] in
/-- The descent of a search that stops at a member, level by level. -/
theorem rankLoop_eq {sk : SkipList σ Bytes} {front : List Addr} {found : Nat → Addr × Int} {n : Nat}
    (hheader : sk.member header = default) (hf : Found sk (header :: front) n found) (member : Bytes)
    {m : Nat} (hm : m ≤ n) :
    (topmost (fun a _ => sk.member a = member) found m).map Prod.snd =
      (ZSet.rankLoop member (front.map sk.node) m).map Nat.cast := by
  induction m with
  | zero => rfl
  | succ m ih =>
      obtain ⟨k, hlast, hk⟩ := hf.1 m hm
      rw [topmost, ZSet.rankLoop, lastOfLevel_eq hheader hlast]
      dsimp only
      by_cases hmember : sk.member (found m).1 = member
      · rw [if_pos (by simpa using hmember), if_pos hmember, Option.map_some, Option.map_some, hk]
      · rw [if_neg (by simpa using hmember), if_neg hmember]
        exact ih (Nat.le_of_succ_le hm)

theorem Mirrors.getRank (h : Mirrors s z) (member : Bytes) (desc : Bool) :
    s.getRank member desc = some (z.getRank member desc) := by
  have hlookup := h.dict member
  have hshape := h.sound.shape
  rw [ZSet.getRank, hlookup]
  cases hd : s.dict member with
  | none => rw [SortedSet.getRank, hd]
  | some score =>
      obtain ⟨front, back, hsplit, hfront, hback⟩ := exists_split _ (upTo_mono hshape member score)
      rw [hsplit] at hshape
      obtain ⟨found, hf, hrank⟩ := hshape.searchRank hfront hback
      have htake : z.nodes.takeWhile (fun a => a.score < score || (a.score = score &&
          (a.member < member || a.member = member))) = front.map s.skipList.node := by
        have hsame (a : Addr) : (decide ((s.skipList.node a).score < score) ||
            (decide ((s.skipList.node a).score = score) && (decide ((s.skipList.node a).member < member) ||
              decide ((s.skipList.node a).member = member)))) = upTo s.skipList member score a := by
          rw [upTo, ← Bool.decide_or]
          congr 2
          exact decide_eq_decide.mpr le_iff_lt_or_eq.symm
        rw [h.nodes, hsplit, List.map_append]
        apply takeWhile_split
        · exact List.forall_mem_map.mpr fun a ha => (hsame a).trans (hfront a ha)
        · exact List.forall_mem_map.mpr fun a ha => (hsame a).trans (hback a ha)
      rw [rankLoop_eq h.sound.header hf member (Nat.le_refl _)] at hrank
      rw [getRank_of hd hrank]
      dsimp only
      rw [htake, h.level, ← h.len]
      cases ZSet.rankLoop member (front.map s.skipList.node) s.skipList.level <;> rfl

inductive Change (σ : Type)
  | add (member : Bytes) (score : σ) (draw : UInt64)
  | remove (member : Bytes)
  | removeByScore (min max : ScoreBorder σ)
  | removeByRank (start stop : { i : Int // -2 ^ 63 ≤ i ∧ i < 2 ^ 63 - 1 })
  | popMin (count : Int)

def Change.call : Change σ → Call σ Bytes
  | .add member score draw => .add member score draw
  | .remove member => .remove member
  | .removeByScore min max => .removeByScore min max
  | .removeByRank start stop => .removeByRank start.1 stop.1
  | .popMin count => .popMin count

variable [Inhabited σ]

def Change.apply (z : ZSet σ) : Change σ → ZSet σ
  | .add member score draw => (z.add member score (randomLevel draw)).1
  | .remove member => (z.remove member).1
  | .removeByScore min max => (z.removeByScore min max).1
  | .removeByRank start stop => (z.removeByRank start.1 stop.1).1
  | .popMin count => (z.popMin count).1

theorem Mirrors.after (h : Mirrors s z) (c : Change σ) : ∃ s', s.after c.call = some s' ∧ Mirrors s' (c.apply z) := by
  cases c with
  | add member score draw =>
      obtain ⟨-, s', hadd, hmirrors⟩ := h.add member score (one_le_randomLevel draw)
      refine ⟨s', ?_, hmirrors⟩
      rw [Change.call, SortedSet.after, ← hadd]
      cases s.add member score (randomLevel draw) <;> rfl
  | remove member =>
      obtain ⟨s', hr, hmirrors⟩ := h.remove member
      exact ⟨s', by rw [Change.call, SortedSet.after, hr]; rfl, hmirrors⟩
  | removeByScore min max =>
      obtain ⟨s', hr, hmirrors⟩ := h.removeByScore min max
      exact ⟨s', by rw [Change.call, SortedSet.after, hr]; rfl, hmirrors⟩
  | removeByRank start stop =>
      obtain ⟨s', hr, hmirrors⟩ := h.removeByRank start.2 stop.2
      exact ⟨s', by rw [Change.call, SortedSet.after, hr]; rfl, hmirrors⟩
  | popMin count =>
      obtain ⟨s', popped, hp, -, hmirrors⟩ := h.popMin count
      exact ⟨s', by rw [Change.call, SortedSet.after, hp]; rfl, hmirrors⟩

theorem Mirrors.afterAll (h : Mirrors s z) (changes : List (Change σ)) :
    ∃ s', s.afterAll (changes.map Change.call) = some s' ∧ Mirrors s' (changes.foldl Change.apply z) := by
  induction changes generalizing s z with
  | nil => exact ⟨s, rfl, h⟩
  | cons c changes ih =>
      obtain ⟨s₁, hafter, h₁⟩ := h.after c
      obtain ⟨s₂, hall, h₂⟩ := ih h₁
      refine ⟨s₂, ?_, h₂⟩
      rw [List.map_cons, SortedSet.afterAll, hafter, Option.bind_some, hall]

/-- Whatever the commands do, the linked set and the one of the commands go together. -/
theorem afterAll_mirrors (changes : List (Change σ)) :
    ∃ s : SortedSet σ Bytes, SortedSet.afterAll make (changes.map Change.call) = some s ∧
      Mirrors s (changes.foldl Change.apply ZSet.make) :=
  make_mirrors.afterAll changes

end SortedSet

end Traitor
