import Traitor.SortedSetRanges

namespace Traitor

open Lib.SkipChain Lib.Windows

namespace SkipList

variable {σ μ : Type} [LinearOrder σ] [LinearOrder μ] {s : SkipList σ μ} {nodes front back : List Addr}

def removesScore (s : SkipList σ μ) (max : ScoreBorder σ) (limit : Int) (removed : Nat) (a : Addr) : Bool :=
  max.greater (s.score a) && !(0 < limit && removed = limit)

omit [LinearOrder μ] in
/-- The nodes up to the upper border, as far as the limit allows. -/
theorem takeRun_removesScore (s : SkipList σ μ) (max : ScoreBorder σ) (limit : Int) (l : List Addr) :
    takeRun (s.removesScore max limit) 0 l =
      if 0 < limit then (l.takeWhile fun a => max.greater (s.score a)).take limit.toNat
      else l.takeWhile fun a => max.greater (s.score a) := by
  by_cases hlimit : 0 < limit
  · rw [if_pos hlimit]
    refine takeRun_limited (n := limit.toNat) (Nat.zero_le _) (fun j hj a => ?_) l
    rw [removesScore, decide_eq_true hlimit, Bool.true_and, ← decide_not]
    congr 1
    rw [decide_eq_decide]
    omega
  · rw [if_neg hlimit]
    apply takeRun_takeWhile
    intro k a
    simp [removesScore, hlimit]

theorem Shape.removeRangeByScore_exact (h : Shape s (front ++ back)) {min : ScoreBorder σ}
    (hfront : ∀ a ∈ front, min.less (s.score a) = false) (hback : ∀ a ∈ back, min.less (s.score a) = true)
    (max : ScoreBorder σ) (limit : Int) :
    ∃ s', s.removeRangeByScore min max limit =
        some (s', (takeRun (s.removesScore max limit) 0 back).map s.element) ∧
      Shape s' (front ++ back.drop (takeRun (s.removesScore max limit) 0 back).length) ∧
      s'.member = s.member ∧ s'.score = s.score := by
  obtain ⟨found, hs, hf⟩ := h.search (splits_of_forall (fun a => !min.less (s.score a))
    (fun a ha => by simp [hfront a ha]) fun a ha => by simp [hback a ha])
  rw [SkipList.removeRangeByScore, hs]
  exact h.removeRun_exact hf _

/-- From the position of the start, counted from 1, as many nodes as fit in front of the stop. -/
theorem Shape.removeRangeByRank_exact (h : Shape s nodes) (start stop : Int) :
    ∃ s', s.removeRangeByRank start stop =
        some (s', ((nodes.drop (start - 1).toNat).take
          (stop - 1 - (nodes.take (start - 1).toNat).length).toNat).map s.element) ∧
      Shape s' (nodes.take (start - 1).toNat ++ (nodes.drop (start - 1).toNat).drop
        (stop - 1 - (nodes.take (start - 1).toNat).length).toNat) ∧
      s'.member = s.member ∧ s'.score = s.score := by
  have h' : Shape s (nodes.take (start - 1).toNat ++ nodes.drop (start - 1).toNat) := by
    rwa [List.take_append_drop]
  obtain ⟨found, hs, hf⟩ := h'.search (splits_rank nodes start)
  obtain ⟨hrank, -, -⟩ := hf.zero h'
  obtain ⟨s', hr, hshape, hfields⟩ :=
    h'.removeRun_exact hf (fun removed _ => (found 0).2 + 1 + removed < stop)
  have hrow : takeRun (fun removed _ => decide ((found 0).2 + 1 + (removed : Int) < stop)) 0
      (nodes.drop (start - 1).toNat) = (nodes.drop (start - 1).toNat).take
        (stop - 1 - (nodes.take (start - 1).toNat).length).toNat := by
    refine takeRun_counted (n := (stop - 1 - (nodes.take (start - 1).toNat).length).toNat) (Nat.zero_le _)
      (fun j _ a => ?_) _
    rw [hrank, decide_eq_decide]
    omega
  rw [hrow, drop_length_take] at hshape
  rw [SkipList.removeRangeByRank, hs]
  exact ⟨s', hrow ▸ hr, hshape, hfields⟩

end SkipList

namespace SortedSet

open SkipList

variable {σ μ : Type} [LinearOrder σ] [LinearOrder μ] {z z' : SortedSet σ μ} {nodes : List Addr}

/-- The removed elements leave the list and the dictionary, and the rest stays as it is. -/
structure Removes (z z' : SortedSet σ μ) (removed rest : List (μ × σ)) : Prop where
  elements : z'.elements = rest
  dict : ∀ m, z'.dict m = if m ∈ removed.map Prod.fst then none else z.dict m

theorem removes_deleteAll {s' : SkipList σ μ} {nodes' : List Addr} (hs : Shape s' nodes')
    (hm : s'.member = z.skipList.member) (hsc : s'.score = z.skipList.score) (removed : List (μ × σ)) :
    Removes z ⟨deleteAll z.dict removed, s'⟩ removed (nodes'.map z.skipList.element) where
  elements := by
    rw [SortedSet.elements, hs.nodes_eq]
    exact List.map_congr_left fun a _ => by rw [element, element, hm, hsc]
  dict := deleteAll_eq z.dict removed

/-- With the elements of a row of nodes the rest is still represented. -/
theorem Represents.of_removesRow (h : Represents z nodes) {result : Option (SkipList σ μ × List (μ × σ))}
    (hr : RemovesRow z.skipList nodes result) {s' : SkipList σ μ} {removed : List (μ × σ)}
    (hs : result = some (s', removed)) : ∃ nodes', Represents ⟨deleteAll z.dict removed, s'⟩ nodes' := by
  obtain ⟨s₁, removed₁, nodes', heq, hrep⟩ := h.removesRow hr
  rw [hs] at heq
  obtain ⟨rfl, rfl⟩ := Prod.mk.inj (Option.some.inj heq)
  exact ⟨nodes', hrep⟩

theorem removeByScore_exact (h : Represents z nodes) (min max : ScoreBorder σ) :
    ∃ z', z.removeByScore min max = some (z', (z.elements.filter (inRange min max)).length) ∧
      Removes z z' (z.elements.filter (inRange min max)) (z.elements.filter fun e => !inRange min max e) ∧
      ∃ nodes', Represents z' nodes' := by
  obtain ⟨below, inside, above, hr⟩ := h.shape.exists_ranged min max
  have hsplit : Shape z.skipList (below ++ (inside ++ above)) := hr.eq ▸ h.shape
  obtain ⟨s', hs, hshape, hm, hsc⟩ := hsplit.removeRangeByScore_exact hr.below
    (List.forall_mem_append.mpr ⟨fun a ha => (hr.inside a ha).1, fun a ha => (hr.above a ha).1⟩) max 0
  have hrow : takeRun (z.skipList.removesScore max 0) 0 (inside ++ above) = inside := by
    rw [takeRun_removesScore, if_neg (by decide)]
    exact takeWhile_split (fun a ha => (hr.inside a ha).2) fun a ha => (hr.above a ha).2
  rw [hrow] at hs hshape
  rw [List.drop_left] at hshape
  have helements := elements_of_shape h.shape
  have hremoved : z.elements.filter (inRange min max) = inside.map z.skipList.element := by
    rw [helements, List.filter_map]
    exact congrArg _ hr.filter_eq
  have hrest : z.elements.filter (fun e => !inRange min max e) = (below ++ above).map z.skipList.element := by
    rw [helements, List.filter_map]
    exact congrArg _ hr.filter_not
  rw [hremoved, hrest, SortedSet.removeByScore, hs]
  exact ⟨_, rfl, removes_deleteAll hshape hm hsc _, h.of_removesRow (h.shape.removeRangeByScore min max 0) hs⟩

def slice {γ : Type} (l : List γ) (start stop : Nat) : List γ := (l.drop start).take (stop - start)

def unsliced {γ : Type} (l : List γ) (start stop : Nat) : List γ := l.take start ++ l.drop (max start stop)

theorem slice_length {γ : Type} (l : List γ) (start stop : Nat) :
    (slice l start stop).length = min (stop - start) (l.length - start) := by
  rw [slice, List.length_take, List.length_drop]

theorem unsliced_of_nil {γ : Type} {l : List γ} {start stop : Nat} (h : slice l start stop = []) :
    unsliced l start stop = l := by
  have hlength := slice_length l start stop
  rw [h, List.length_nil] at hlength
  rw [unsliced]
  rcases Nat.lt_or_ge start stop with hlt | hle
  · rw [List.take_of_length_le (by omega), List.drop_of_length_le (by omega), List.append_nil]
  · rw [Nat.max_eq_left hle, List.take_append_drop]

/-- Behind the end of a list there is nothing to take. -/
theorem slice_of_rank {γ : Type} (l : List γ) (start stop : Int) :
    (l.drop start.toNat).take (stop - (l.take start.toNat).length).toNat = slice l start.toNat stop.toNat ∧
      (l.drop start.toNat).drop (stop - (l.take start.toNat).length).toNat =
        l.drop (max start.toNat stop.toNat) := by
  rcases Nat.le_total start.toNat l.length with hle | hle
  · have hlength : (stop - ((l.take start.toNat).length : Int)).toNat = stop.toNat - start.toNat := by
      rw [List.length_take]
      omega
    rw [hlength, slice, List.drop_drop]
    exact ⟨rfl, congrArg (l.drop ·) (by omega)⟩
  · have hnil : l.drop start.toNat = [] := List.drop_eq_nil_iff.mpr hle
    rw [slice, hnil, List.take_nil, List.take_nil, List.drop_nil]
    exact ⟨rfl, (List.drop_eq_nil_iff.mpr (by omega)).symm⟩

theorem Represents.removeRangeByRank_exact (h : Represents z nodes) (start stop : Int) :
    let removed := slice z.elements (start - 1).toNat (stop - 1).toNat
    ∃ s', z.skipList.removeRangeByRank start stop = some (s', removed) ∧
      Removes z ⟨deleteAll z.dict removed, s'⟩ removed
        (unsliced z.elements (start - 1).toNat (stop - 1).toNat) ∧
      ∃ nodes', Represents ⟨deleteAll z.dict removed, s'⟩ nodes' := by
  obtain ⟨s', hs, hshape, hm, hsc⟩ := h.shape.removeRangeByRank_exact start stop
  have helements := elements_of_shape h.shape
  obtain ⟨hrow, hrest⟩ := slice_of_rank nodes (start - 1) (stop - 1)
  have hremoved : slice z.elements (start - 1).toNat (stop - 1).toNat =
      (slice nodes (start - 1).toNat (stop - 1).toNat).map z.skipList.element := by
    rw [helements, slice, slice, List.map_take, List.map_drop]
  have hkept : unsliced z.elements (start - 1).toNat (stop - 1).toNat =
      (unsliced nodes (start - 1).toNat (stop - 1).toNat).map z.skipList.element := by
    rw [helements, unsliced, unsliced, List.map_append, List.map_take, List.map_drop]
  rw [hrow] at hs
  rw [hrest] at hshape
  rw [hremoved, hkept]
  exact ⟨s', hs, removes_deleteAll hshape hm hsc _, h.of_removesRow (h.shape.removeRangeByRank start stop) hs⟩

def RemovesRanks (z : SortedSet σ μ) (start stop : Int) : Prop :=
  ∃ z', z.removeByRank start stop = some (z', (slice z.elements start.toNat stop.toNat).length) ∧
    Removes z z' (slice z.elements start.toNat stop.toNat) (unsliced z.elements start.toNat stop.toNat) ∧
    ∃ nodes', Represents z' nodes'

/-- The greatest elements, at most as many as are asked for, are removed and answered. -/
def PopsGreatest (z : SortedSet σ μ) (count : Int) : Prop :=
  ∃ z', z.popMax count = some (z', z.elements.drop (z.elements.length - count.toNat)) ∧
    Removes z z' (z.elements.drop (z.elements.length - count.toNat))
      (z.elements.take (z.elements.length - count.toNat)) ∧
    ∃ nodes', Represents z' nodes'

theorem removesRanks_iff (h : Represents z nodes) (hlength : (z.elements.length : Int) < 2 ^ 63)
    {start stop : Int} (hstart : 0 ≤ start ∧ start < 2 ^ 63) (hstop : -2 ^ 63 ≤ stop ∧ stop < 2 ^ 63) :
    RemovesRanks z start stop ↔
      (stop = 2 ^ 63 - 1 → start = 2 ^ 63 - 1 ∨ (z.elements.length : Int) ≤ start) ∧
        (start = 2 ^ 63 - 1 → stop = 2 ^ 63 - 1 ∨ stop ≤ 0 ∨ z.elements = []) := by
  obtain ⟨s', hs, hremoves, hrep⟩ := h.removeRangeByRank_exact (wrap64 (start + 1)) (wrap64 (stop + 1))
  rw [RemovesRanks, SortedSet.removeByRank, hs]
  have hmax {i : Int} (hi : -2 ^ 63 ≤ i ∧ i < 2 ^ 63) :
      i = 2 ^ 63 - 1 ∧ wrap64 (i + 1) = -2 ^ 63 ∨ i < 2 ^ 63 - 1 ∧ wrap64 (i + 1) = i + 1 := by
    by_cases heq : i = 2 ^ 63 - 1
    · refine .inl ⟨heq, ?_⟩
      rw [wrap64_of_le (by omega) (by omega)]
      omega
    · exact .inr ⟨by omega, wrap64_of_lt (by omega) (by omega)⟩
  rw [← List.length_eq_zero_iff]
  constructor
  · rintro ⟨z', hremoved, -⟩
    have hlengths := congrArg Prod.snd (Option.some.inj hremoved)
    dsimp only at hlengths
    rw [slice_length, slice_length] at hlengths
    rcases hmax (i := start) ⟨by omega, hstart.2⟩ with ⟨hs, hws⟩ | ⟨hs, hws⟩ <;>
      rcases hmax hstop with ⟨ht, hwt⟩ | ⟨ht, hwt⟩ <;> rw [hws, hwt] at hlengths <;> omega
  · rintro ⟨hstop', hstart'⟩
    have hsame : slice z.elements (wrap64 (start + 1) - 1).toNat (wrap64 (stop + 1) - 1).toNat =
          slice z.elements start.toNat stop.toNat ∧
        unsliced z.elements (wrap64 (start + 1) - 1).toNat (wrap64 (stop + 1) - 1).toNat =
          unsliced z.elements start.toNat stop.toNat := by
      by_cases hexact : start < 2 ^ 63 - 1 ∧ stop < 2 ^ 63 - 1
      · rw [wrap64_of_lt (by omega) (by omega), wrap64_of_lt (by omega) (by omega), Int.add_sub_cancel,
          Int.add_sub_cancel]
        exact ⟨rfl, rfl⟩
      · have hcode : slice z.elements (wrap64 (start + 1) - 1).toNat (wrap64 (stop + 1) - 1).toNat = [] := by
          rw [← List.length_eq_zero_iff, slice_length]
          rcases hmax (i := start) ⟨by omega, hstart.2⟩ with ⟨hs, hws⟩ | ⟨hs, hws⟩ <;>
            rcases hmax hstop with ⟨ht, hwt⟩ | ⟨ht, hwt⟩ <;> rw [hws, hwt] <;> omega
        have hspec : slice z.elements start.toNat stop.toNat = [] := by
          rw [← List.length_eq_zero_iff, slice_length]
          omega
        rw [hcode, hspec, unsliced_of_nil hcode, unsliced_of_nil hspec]
        exact ⟨rfl, rfl⟩
    rw [hsame.1, hsame.2] at hremoves
    rw [hsame.1] at hrep ⊢
    exact ⟨_, rfl, hremoves, hrep⟩

theorem popsGreatest_iff (h : Represents z nodes) (hlength : (z.elements.length : Int) < 2 ^ 63)
    {count : Int} (hcount : 0 ≤ count ∧ count < 2 ^ 63) :
    PopsGreatest z count ↔ count = 0 ∨ (z.elements.length : Int) + 1 < 2 ^ 63 := by
  have hlen : z.skipList.length = z.elements.length := by
    rw [h.shape.length, elements_of_shape h.shape, List.length_map]
  obtain ⟨s', hs, hremoves, hrep⟩ := h.removeRangeByRank_exact
    (wrap64 (z.skipList.length - wrap64 (count - 1))) (wrap64 (z.skipList.length + 1))
  rw [PopsGreatest, SortedSet.popMax]
  simp only [hs, Option.bind_eq_bind, Option.bind_some]
  rw [wrap64_of_lt (i := count - 1) (by omega) (by omega), hlen] at hremoves hrep ⊢
  by_cases hfits : (z.elements.length : Int) + 1 < 2 ^ 63
  · refine iff_of_true ?_ (.inr hfits)
    have hstart : ((z.elements.length : Int) - (count - 1) - 1).toNat = z.elements.length - count.toNat := by
      omega
    have hstop : ((z.elements.length : Int) + 1 - 1).toNat = z.elements.length := by omega
    have hslice : slice z.elements (z.elements.length - count.toNat) z.elements.length =
        z.elements.drop (z.elements.length - count.toNat) :=
      List.take_of_length_le (by rw [List.length_drop])
    have hunsliced : unsliced z.elements (z.elements.length - count.toNat) z.elements.length =
        z.elements.take (z.elements.length - count.toNat) := by
      rw [unsliced, List.drop_of_length_le (by omega), List.append_nil]
    rw [wrap64_of_lt (by omega) (by omega), wrap64_of_lt (by omega) (by omega), hstart, hstop, hslice]
      at hremoves hrep ⊢
    rw [hunsliced] at hremoves
    exact ⟨_, rfl, hremoves, hrep⟩
  · have hstop : (wrap64 ((z.elements.length : Int) + 1) - 1).toNat = 0 := by
      rw [wrap64_of_le (by omega) (by omega)]
      omega
    have hnil (start : Nat) : slice z.elements start 0 = [] := by
      rw [← List.length_eq_zero_iff, slice_length]
      omega
    rw [hstop, hnil] at hremoves hrep ⊢
    rw [unsliced_of_nil (hnil _)] at hremoves
    rw [or_iff_left hfits]
    constructor
    · rintro ⟨z', hpopped, -⟩
      have hlengths := congrArg (List.length ∘ Prod.snd) (Option.some.inj hpopped)
      simp only [Function.comp_apply, List.length_nil, List.length_drop] at hlengths
      omega
    · rintro rfl
      rw [Int.toNat_zero, Nat.sub_zero, List.drop_length, List.take_length]
      exact ⟨_, rfl, hremoves, hrep⟩

/-- The last rank of all is not counted on. -/
theorem ranks_removed_iff (h : Represents z nodes) (hlength : (z.elements.length : Int) < 2 ^ 63) :
    (∀ start stop : Int, 0 ≤ start ∧ start < 2 ^ 63 → -2 ^ 63 ≤ stop ∧ stop < 2 ^ 63 →
      (RemovesRanks z start stop ↔
        (stop = 2 ^ 63 - 1 → start = 2 ^ 63 - 1 ∨ (z.elements.length : Int) ≤ start) ∧
          (start = 2 ^ 63 - 1 → stop = 2 ^ 63 - 1 ∨ stop ≤ 0 ∨ z.elements = []))) ∧
      ∀ count : Int, 0 ≤ count ∧ count < 2 ^ 63 →
        (PopsGreatest z count ↔ count = 0 ∨ (z.elements.length : Int) + 1 < 2 ^ 63) :=
  ⟨fun _ _ hstart hstop => removesRanks_iff h hlength hstart hstop,
    fun _ hcount => popsGreatest_iff h hlength hcount⟩

section

variable [Inhabited σ] [Inhabited μ]

/-- The least elements, at most as many as are asked for, are removed and answered. -/
def PopsLeast (z : SortedSet σ μ) (count : Int) : Prop :=
  ∃ z' popped, z.popMin count = some (z', popped) ∧ popped.getD [] = z.elements.take count.toNat ∧
    Removes z z' (z.elements.take count.toNat) (z.elements.drop count.toNat)

/-- A count that is not positive is no limit. -/
theorem Sound.popMin_exact (h : Sound z nodes) {first : Addr} (hfirst : nodes.head? = some first) (count : Int) :
    let n := if 0 < count then count.toNat else z.elements.length
    ∃ z', z.popMin count = some (z', some (z.elements.take n)) ∧
      Removes z z' (z.elements.take n) (z.elements.drop n) := by
  have hless (a : Addr) (ha : a ∈ nodes) :
      (⟨.finite, z.skipList.score first, false⟩ : ScoreBorder σ).less (z.skipList.score a) = true := by
    obtain ⟨rest, rfl⟩ := List.head?_eq_some_iff.mp hfirst
    simp only [ScoreBorder.less, Bool.false_eq_true, if_false, decide_eq_true_eq]
    rcases List.mem_cons.mp ha with rfl | ha
    · exact le_refl _
    · exact ((List.pairwise_cons.mp h.shape.sorted).1 a ha).score_le
  have helements := h.elements_eq
  have hsplit : Shape z.skipList ([] ++ nodes) := h.shape
  obtain ⟨s', hs, hshape, hm, hsc⟩ := hsplit.removeRangeByScore_exact (by simp) hless .positiveInfBorder count
  have hrow : takeRun (z.skipList.removesScore .positiveInfBorder count) 0 nodes =
      nodes.take (if 0 < count then count.toNat else z.elements.length) := by
    have hall : nodes.takeWhile (fun a => ScoreBorder.positiveInfBorder.greater (z.skipList.score a)) = nodes :=
      List.takeWhile_eq_self_iff.mpr fun _ _ => rfl
    rw [takeRun_removesScore, hall]
    split
    · rfl
    · rw [helements, List.length_map, List.take_length]
  rw [hrow] at hs hshape
  rw [List.nil_append, drop_length_take] at hshape
  dsimp only
  rw [SortedSet.popMin, h.shape.getFirst, hfirst]
  simp only [Option.bind_eq_bind, Option.bind_some, hs]
  have hremoves := removes_deleteAll hshape hm hsc
    ((nodes.take (if 0 < count then count.toNat else z.elements.length)).map z.skipList.element)
  rw [List.map_drop, List.map_take, ← helements] at hremoves
  rw [List.map_take, ← helements]
  exact ⟨_, rfl, hremoves⟩

end

def twoAdds : List (Op Int String) := [.add "a" 1 ⟨1, by decide⟩, .add "b" 5 ⟨2, by decide⟩]

theorem twoAdds_elements : (run make twoAdds).map elements = some [("a", 1), ("b", 5)] := by decide

theorem exists_twoAdds : ∃ z nodes, run make twoAdds = some z ∧ Represents z nodes ∧
    z.elements = [("a", 1), ("b", 5)] := by
  obtain ⟨z, nodes, hrun, hrep⟩ := run_make_represents twoAdds
  have helements := twoAdds_elements
  rw [hrun] at helements
  exact ⟨z, nodes, hrun, hrep, Option.some.inj helements⟩

theorem removeByScore_exact_twoAdds : ∃ z z', run make twoAdds = some z ∧
    z.removeByScore ⟨.finite, 0, false⟩ ⟨.finite, 5, true⟩ = some (z', 1) ∧ z'.elements = [("b", 5)] := by
  obtain ⟨z, nodes, hrun, hrep, helements⟩ := exists_twoAdds
  obtain ⟨z', hremoved, hremoves, -⟩ := removeByScore_exact hrep ⟨.finite, 0, false⟩ ⟨.finite, 5, true⟩
  rw [helements] at hremoved hremoves
  exact ⟨z, z', hrun, hremoved, hremoves.elements⟩

theorem ranks_removed_twoAdds : ∃ z z', run make twoAdds = some z ∧ z.popMax 1 = some (z', [("b", 5)]) ∧
    z'.elements = [("a", 1)] := by
  obtain ⟨z, nodes, hrun, hrep, helements⟩ := exists_twoAdds
  have hlength : (z.elements.length : Int) < 2 ^ 63 := by
    rw [helements]
    decide
  obtain ⟨z', hpopped, hremoves, -⟩ := ((ranks_removed_iff hrep hlength).2 1 (by decide)).mpr
    (.inr (by rw [helements]; decide))
  rw [helements] at hpopped hremoves
  exact ⟨z, z', hrun, hpopped, hremoves.elements⟩

/-- The stop is counted from 1, so the greatest one becomes the least. -/
theorem not_removesRanks_max : ∃ z nodes, run make twoAdds = some z ∧ Represents z nodes ∧
    z.elements = [("a", 1), ("b", 5)] ∧
    (z.removeByRank 0 9223372036854775807).map Prod.snd = some 0 ∧
    ¬ RemovesRanks z 0 9223372036854775807 := by
  obtain ⟨z, nodes, hrun, hrep, helements⟩ := exists_twoAdds
  have hnone : (run make twoAdds).bind (fun z => (z.removeByRank 0 9223372036854775807).map Prod.snd) =
      some 0 := by decide
  rw [hrun, Option.bind_some] at hnone
  refine ⟨z, nodes, hrun, hrep, helements, hnone, ?_⟩
  rintro ⟨z', hremoved, -⟩
  rw [hremoved, helements] at hnone
  have hzero : (slice [("a", (1 : Int)), ("b", 5)] 0 9223372036854775807).length = 0 := Option.some.inj hnone
  exact absurd hzero (by decide)

end SortedSet

end Traitor
