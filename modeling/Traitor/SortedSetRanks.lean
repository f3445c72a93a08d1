import Traitor.SortedSetRemovals

namespace Traitor

open Lib.SkipChain Lib.Windows

namespace SkipList

section

variable {σ μ : Type} {s : SkipList σ μ} {cond : Int → Addr → Bool} {stop : Addr → Int → Bool}
  {found : Nat → Addr × Int}

def topmost (stop : Addr → Int → Bool) (found : Nat → Addr × Int) : Nat → Option (Addr × Int)
  | 0 => none
  | i + 1 => if stop (found i).1 (found i).2 then some (found i) else topmost stop found i

theorem topmost_congr {found' : Nat → Addr × Int} {n : Nat} (h : ∀ i < n, found' i = found i) :
    topmost stop found' n = topmost stop found n := by
  induction n with
  | zero => rfl
  | succ n ih =>
      rw [topmost, topmost, h n (Nat.lt_succ_self n), ih fun i hi => h i (Nat.lt_succ_of_lt hi)]

theorem searchUntil_eq {n : Nat} {node : Addr} {rank : Int} (h : search s cond n node rank = some found) :
    searchUntil s cond stop n node rank = some (topmost stop found n) := by
  induction n generalizing node rank found with
  | zero => rfl
  | succ n ih =>
      rw [search] at h
      obtain ⟨⟨node', rank'⟩, hw, h⟩ := Option.bind_eq_some_iff.mp h
      obtain ⟨found', hs, h⟩ := Option.bind_eq_some_iff.mp h
      obtain rfl := Option.some.inj h
      have hlow : topmost stop (Function.update found' n (node', rank')) n = topmost stop found' n :=
        topmost_congr fun i hi => Function.update_of_ne (Nat.ne_of_lt hi) _ _
      rw [searchUntil, hw, Option.bind_eq_bind, Option.bind_some, topmost, Function.update_self, hlow]
      dsimp only
      split
      · rfl
      · exact ih hs

theorem topmost_none {n : Nat} (h : ∀ i < n, stop (found i).1 (found i).2 = false) :
    topmost stop found n = none := by
  induction n with
  | zero => rfl
  | succ n ih =>
      rw [topmost, if_neg (by simp [h n (Nat.lt_succ_self n)])]
      exact ih fun i hi => h i (Nat.lt_succ_of_lt hi)

/-- When the search can stop only at one place, it stops there. -/
theorem topmost_of_unique {n : Nat} {place : Addr × Int}
    (h : ∀ i < n, stop (found i).1 (found i).2 = true → found i = place)
    (hstops : ∃ i < n, stop (found i).1 (found i).2 = true) : topmost stop found n = some place := by
  induction n with
  | zero =>
      obtain ⟨i, hi, -⟩ := hstops
      exact absurd hi (Nat.not_lt_zero i)
  | succ n ih =>
      rw [topmost]
      by_cases hn : stop (found n).1 (found n).2 = true
      · rw [if_pos hn, h n (Nat.lt_succ_self n) hn]
      · rw [if_neg hn]
        apply ih (fun i hi => h i (Nat.lt_succ_of_lt hi))
        obtain ⟨i, hi, hs⟩ := hstops
        refine ⟨i, lt_of_le_of_ne (Nat.le_of_lt_succ hi) ?_, hs⟩
        rintro rfl
        exact hn hs

end

/-- Of what is found the node at the end of the front part has the greatest rank. -/
theorem Found.end_iff {σ μ : Type} {s : SkipList σ μ} {found : Nat → Addr × Int} {front : List Addr} {x : Addr}
    {n : Nat} (hf : Found s (header :: front ++ [x]) n found) (hnodup : (header :: front ++ [x]).Nodup)
    {i : Nat} (hi : i < n) : (found i).1 = x ↔ (found i).2 = ((front.length + 1 : Nat) : Int) := by
  obtain ⟨k, hlast, hk⟩ := hf.1 i hi
  constructor
  · intro hx
    rw [hx] at hlast
    rw [hk, isLast_index hlast hnodup]
    rfl
  · intro hrank
    obtain rfl : k = front.length + 1 := by omega
    exact isLast_end (l := header :: front) hlast

section

variable {σ μ : Type} [LinearOrder σ] [LinearOrder μ] {s : SkipList σ μ} {nodes front back : List Addr}
  {found : Nat → Addr × Int} {x : Addr}

theorem Shape.nodup_front (h : Shape s (front ++ back)) : (header :: front).Nodup := by
  have hall := h.nodup
  rw [← List.cons_append] at hall
  exact (List.nodup_append.mp hall).1

theorem Shape.getByRank (h : Shape s (front ++ x :: back)) :
    s.getByRank ((front.length + 1 : Nat) : Int) = some (some x) := by
  have h' : Shape s ((front ++ [x]) ++ back) := by simpa using h
  have hsplits : Splits (fun rank _ => decide (rank ≤ ((front.length + 1 : Nat) : Int)))
      (header :: (front ++ [x])) back := by
    intro pre b post _ _
    simp only [decide_eq_true_eq, List.length_cons, List.length_append, List.length_nil]
    omega
  obtain ⟨found, hs, hf⟩ := h'.search hsplits
  obtain ⟨hzero, -, -⟩ := hf.zero h'
  have hnodup := h'.nodup_front
  have hplace (i : Nat) (hi : i < s.level) (hstop : (found i).2 = ((front.length + 1 : Nat) : Int)) :
      found i = (x, ((front.length + 1 : Nat) : Int)) :=
    Prod.ext ((hf.end_iff hnodup hi).mpr hstop) hstop
  have hfound : topmost (fun _ i => decide (i = ((front.length + 1 : Nat) : Int))) found s.level =
      some (x, ((front.length + 1 : Nat) : Int)) := by
    refine topmost_of_unique (fun i hi hstop => hplace i hi (of_decide_eq_true hstop)) ⟨0, h.level.1, ?_⟩
    rw [hzero]
    simp
  rw [SkipList.getByRank, searchUntil_eq hs, hfound]
  rfl

end

section

variable {σ μ : Type} [LinearOrder σ] [LinearOrder μ] {s : SkipList σ μ} {front back : List Addr} {x : Addr}
  {member : μ} {score : σ}

theorem upTo_mono {nodes : List Addr} (h : Shape s nodes) (member : μ) (score : σ) :
    nodes.Pairwise fun a b => upTo s member score b = true → upTo s member score a = true := by
  refine h.sorted.imp fun {a b} hab hb => ?_
  simp only [upTo, Bool.or_eq_true, Bool.and_eq_true, decide_eq_true_eq] at hb ⊢
  exact (lex_trans hab hb).imp id fun he => ⟨he.1, he.2.le⟩

/-- Of the nodes up to a member one has the height of the list, so that the search leaves the header. -/
def Leaves (s : SkipList σ μ) (member : μ) (score : σ) : Prop :=
  ∃ a ∈ s.nodes, upTo s member score a = true ∧ s.height a = s.level

/-- The search for a rank leaves the header on all levels or not on the topmost one. -/
theorem Found.leaves {found : Nat → Addr × Int} (h : Shape s (front ++ back))
    (hf : Found s (header :: front) s.level found) (hfront : ∀ a ∈ front, upTo s member score a = true)
    (hback : ∀ a ∈ back, upTo s member score a = false) :
    (Leaves s member score → ∀ i < s.level, (found i).1 ≠ header) ∧
      (¬ Leaves s member score → found (s.level - 1) = (header, 0)) := by
  have hnodup := h.nodup_front
  constructor
  · rintro ⟨a, ha, hup, hheight⟩ i hi
    rw [h.nodes_eq] at ha
    obtain ⟨k, hlast, -⟩ := hf.1 i hi
    have hin : a ∈ front := (List.mem_append.mp ha).resolve_right fun hb => by
      rw [hback a hb] at hup
      cases hup
    intro hheader
    have hshort := (isLast_head hlast hnodup).mp hheader a hin
    simp only [tall, decide_eq_false_iff_not] at hshort
    omega
  · intro hleaves
    have hlevel := h.level.1
    obtain ⟨k, hlast, hk⟩ := hf.1 (s.level - 1) (by omega)
    have hshort : ∀ a ∈ front, tall s (s.level - 1) a = false := by
      intro a ha
      have hle := (h.heights a (List.mem_append_left _ ha)).2
      have hne : s.height a ≠ s.level := fun heq =>
        hleaves ⟨a, by rw [h.nodes_eq]; exact List.mem_append_left _ ha, hfront a ha, heq⟩
      simp only [tall, decide_eq_false_iff_not]
      omega
    have hheader := (isLast_head hlast hnodup).mpr hshort
    rw [hheader] at hlast
    have hindex : k = ([] : List Addr).length := isLast_index hlast hnodup
    exact Prod.ext hheader (by rw [hk, hindex]; rfl)

theorem Shape.searchRank (h : Shape s (front ++ back)) (hfront : ∀ a ∈ front, upTo s member score a = true)
    (hback : ∀ a ∈ back, upTo s member score a = false) :
    ∃ found, Found s (header :: front) s.level found ∧ SkipList.getRank s member score =
      some ((topmost (fun node _ => s.member node = member) found s.level).map Prod.snd) := by
  obtain ⟨found, hs, hf⟩ := h.search (splits_of_forall _ hfront hback)
  refine ⟨found, hf, ?_⟩
  rw [SkipList.getRank, searchUntil_eq hs]
  rfl

/-- A header with the member answers the rank of none. -/
theorem Shape.getRank_header {nodes : List Addr} (h : Shape s nodes) (hheader : s.member header = member)
    (hleaves : ¬ Leaves s member score) : SkipList.getRank s member score = some (some 0) := by
  obtain ⟨front, back, rfl, hfront, hback⟩ := exists_split _ (upTo_mono h member score)
  obtain ⟨found, hf, hrank⟩ := h.searchRank hfront hback
  obtain ⟨n, hn⟩ : ∃ n, s.level = n + 1 := ⟨s.level - 1, by have := h.level.1; omega⟩
  have htop : found n = (header, 0) := by
    rw [← (hf.leaves h hfront hback).2 hleaves, hn, Nat.add_sub_cancel]
  rw [hrank, hn, topmost, htop, if_pos (by simp [hheader])]
  rfl

theorem Shape.getRank_absent {nodes : List Addr} (h : Shape s nodes)
    (habsent : ∀ a ∈ nodes, s.member a ≠ member)
    (hheader : s.member header = member → Leaves s member score) :
    SkipList.getRank s member score = some none := by
  obtain ⟨front, back, rfl, hfront, hback⟩ := exists_split _ (upTo_mono h member score)
  obtain ⟨found, hf, hrank⟩ := h.searchRank hfront hback
  rw [hrank, topmost_none]
  · rfl
  · intro i hi
    obtain ⟨k, hlast, -⟩ := hf.1 i hi
    rw [decide_eq_false_iff_not]
    intro hmember
    rcases List.mem_cons.mp (isLast_mem hlast) with heq | hin
    · rw [heq] at hmember
      exact (hf.leaves h hfront hback).1 (hheader hmember) i hi heq
    · exact habsent _ (List.mem_append_left _ hin) hmember

theorem Shape.getRank_present (h : Shape s (front ++ x :: back))
    (hinj : ∀ a ∈ front ++ x :: back, s.member a = s.member x → a = x)
    (hheader : s.member header = s.member x → Leaves s (s.member x) (s.score x)) :
    SkipList.getRank s (s.member x) (s.score x) = some (some ((front.length + 1 : Nat) : Int)) := by
  have h' : Shape s ((front ++ [x]) ++ back) := by simpa using h
  obtain ⟨hsorted, -, hbehind⟩ := List.pairwise_append.mp h'.sorted
  have hfront : ∀ a ∈ front ++ [x], upTo s (s.member x) (s.score x) a = true := by
    intro a ha
    simp only [upTo, Bool.or_eq_true, Bool.and_eq_true, decide_eq_true_eq]
    rcases List.mem_append.mp ha with ha | ha
    · have hbefore := (List.pairwise_append.mp hsorted).2.2 a ha x (by simp)
      exact hbefore.imp id fun he => ⟨he.1, he.2.le⟩
    · obtain rfl := List.mem_singleton.mp ha
      exact .inr ⟨rfl, le_refl _⟩
  have hback : ∀ a ∈ back, upTo s (s.member x) (s.score x) a = false := by
    intro a ha
    have hbefore := hbehind x (by simp) a ha
    rw [Before] at hbefore
    simp only [upTo, Bool.or_eq_false_iff, Bool.and_eq_false_iff, decide_eq_false_iff_not]
    rcases hbefore with hlt | ⟨heq, hlt⟩
    · exact ⟨hlt.not_gt, .inl hlt.ne'⟩
    · exact ⟨heq.not_gt, .inr hlt.not_ge⟩
  obtain ⟨found, hf, hrank⟩ := h'.searchRank hfront hback
  have hnodup := h'.nodup_front
  have hplace (i : Nat) (hi : i < s.level) (hstop : s.member (found i).1 = s.member x) :
      found i = (x, ((front.length + 1 : Nat) : Int)) := by
    obtain ⟨k, hlast, -⟩ := hf.1 i hi
    have hx : (found i).1 = x := by
      rcases List.mem_cons.mp (isLast_mem hlast) with heq | hin
      · rw [heq] at hstop
        exact absurd heq ((hf.leaves h' hfront hback).1 (hheader hstop) i hi)
      · exact hinj _ (by simpa using List.mem_append_left back hin) hstop
    exact Prod.ext hx ((hf.end_iff hnodup hi).mp hx)
  have hfound : topmost (fun node _ => decide (s.member node = s.member x)) found s.level =
      some (x, ((front.length + 1 : Nat) : Int)) := by
    refine topmost_of_unique (fun i hi hstop => hplace i hi (of_decide_eq_true hstop)) ⟨0, h.level.1, ?_⟩
    have hx : (found 0).1 = x := (hf.end_iff hnodup h.level.1).mpr (by rw [(hf.zero h').1]; simp)
    rw [hx]
    simp
  rw [hrank, hfound]
  rfl

end

end SkipList

namespace SortedSet

open SkipList

variable {σ μ : Type} [LinearOrder σ] [LinearOrder μ] {z : SortedSet σ μ} {nodes : List Addr} {member : μ}
  {score : σ}

/-- The elements at a position and around it come from nodes. -/
theorem nodes_split (h : Shape z.skipList nodes) {p : Nat} {e : μ × σ} (he : z.elements[p]? = some e) :
    ∃ front x back, nodes = front ++ x :: back ∧ front.length = p ∧ z.skipList.element x = e := by
  rw [elements_of_shape h, List.getElem?_map, Option.map_eq_some_iff] at he
  obtain ⟨x, hx, rfl⟩ := he
  obtain ⟨hp, rfl⟩ := List.getElem?_eq_some_iff.mp hx
  refine ⟨nodes.take p, nodes[p], nodes.drop (p + 1), ?_, by rw [List.length_take]; omega, rfl⟩
  rw [← List.drop_eq_getElem_cons hp, List.take_append_drop]

section

variable {l : List Addr} {desc : Bool} {start stop : Int}

theorem getByRank_eq (h : Shape z.skipList nodes) {rank : Nat} (hrank : 1 ≤ rank ∧ rank ≤ nodes.length) :
    z.skipList.getByRank rank = some nodes[rank - 1]? := by
  have hp : rank - 1 < nodes.length := by omega
  have hsplit : nodes = nodes.take (rank - 1) ++ nodes[rank - 1] :: nodes.drop (rank - 1 + 1) := by
    rw [← List.drop_eq_getElem_cons hp, List.take_append_drop]
  have hlength : (nodes.take (rank - 1)).length + 1 = rank := by
    rw [List.length_take]
    omega
  rw [hsplit] at h
  have hfound := h.getByRank
  rw [hlength] at hfound
  rw [hfound, List.getElem?_eq_getElem hp]

omit [LinearOrder σ] [LinearOrder μ] in
/-- What is left of the loop from a node that leads through a list. -/
theorem range_of_start (hleads : Leads z.skipList desc l) (hlength : (l.length : Int) = z.len)
    (hstart : 0 ≤ start ∧ start < z.len) (hstop : start ≤ stop ∧ stop ≤ z.len)
    (hnode : (if desc then if 0 < start then z.skipList.getByRank (z.len - start) else some z.skipList.tail
      else if 0 < start then z.skipList.getByRank (start + 1)
      else some (z.skipList.forward SkipList.header 0)) = some (l.drop start.toNat).head?) :
    z.range start stop desc = some (slice (l.map z.skipList.element) start.toNat stop.toNat) := by
  have hsize : (stop - start).toNat ≤ (l.drop start.toNat).length := by
    rw [List.length_drop]
    omega
  have hloop := (hleads.drop start.toNat).forEach (fun slice e => (slice ++ [e], true)) hsize []
  rw [visit_collect, List.nil_append, List.map_take, List.map_drop,
    show (stop - start).toNat = stop.toNat - start.toNat by omega] at hloop
  have hbind (k : Option Addr → Option (List (μ × σ))) :
      (if desc then
        if 0 < start then (z.skipList.getByRank (z.len - start)).bind k else (some z.skipList.tail).bind k
      else if 0 < start then (z.skipList.getByRank (start + 1)).bind k
      else (some (z.skipList.forward SkipList.header 0)).bind k) = k (l.drop start.toNat).head? := by
    rw [← Option.bind_some (l.drop start.toNat).head? k, ← hnode]
    cases desc <;> by_cases hpos : 0 < start <;> simp only [hpos, if_true, if_false, Bool.false_eq_true]
  rw [range, if_neg (by omega), SortedSet.forEach, if_neg (by omega), if_neg (by omega),
    show (stop - start).toNat = stop.toNat - start.toNat by omega]
  exact (hbind _).trans hloop

theorem range_slice (h : Shape z.skipList nodes) (hstart : 0 ≤ start ∧ start < z.len)
    (hstop : start ≤ stop ∧ stop ≤ z.len) (desc : Bool) :
    z.range start stop desc =
      some (slice (if desc then z.elements.reverse else z.elements) start.toNat stop.toNat) := by
  have hlen : z.len = nodes.length := h.length
  rw [elements_of_shape h]
  cases desc with
  | false =>
      have hsplit : Shape z.skipList ([] ++ nodes) := h
      apply range_of_start hsplit.leads hlen.symm hstart hstop
      rw [if_neg (by simp), List.head?_drop]
      split
      · obtain ⟨n, rfl⟩ := Int.eq_ofNat_of_zero_le hstart.1
        exact getByRank_eq h (show 1 ≤ n + 1 ∧ n + 1 ≤ nodes.length by omega)
      · rw [h.first_eq, show start.toNat = 0 by omega, List.head?_eq_getElem?]
  | true =>
      have hsplit : Shape z.skipList (nodes ++ []) := by rw [List.append_nil]; exact h
      rw [if_pos rfl, ← List.map_reverse]
      apply range_of_start hsplit.leads_back (by rw [List.length_reverse, hlen]) hstart hstop
      rw [if_pos rfl, List.head?_drop]
      split
      · obtain ⟨n, rfl⟩ := Int.eq_ofNat_of_zero_le hstart.1
        rw [hlen, show (nodes.length : Int) - n = ((nodes.length - n : Nat) : Int) by omega,
          getByRank_eq h (by omega), Int.toNat_natCast, List.getElem?_reverse (by omega),
          show nodes.length - n - 1 = nodes.length - 1 - n by omega]
      · rw [h.tail_eq, show start.toNat = 0 by omega, ← List.head?_eq_getElem?, List.head?_reverse]

/-- Ranges are slices, and each rank has its node. -/
theorem range_eq_slice (h : Represents z nodes) :
    (∀ start stop : Int, 0 ≤ start ∧ start < z.len → start ≤ stop ∧ stop ≤ z.len →
      z.range start stop false = some (slice z.elements start.toNat stop.toNat) ∧
        z.range start stop true = some (slice z.elements.reverse start.toNat stop.toNat)) ∧
    ∀ rank : Nat, 1 ≤ rank ∧ (rank : Int) ≤ z.len → ∃ a, nodes[rank - 1]? = some a ∧
      z.skipList.getByRank rank = some (some a) := by
  refine ⟨fun start stop hstart hstop => ⟨?_, ?_⟩, fun rank hrank => ?_⟩
  · exact range_slice h.shape hstart hstop false
  · exact range_slice h.shape hstart hstop true
  · have hlen : z.len = nodes.length := h.shape.length
    refine ⟨nodes[rank - 1], List.getElem?_eq_getElem (by omega), ?_⟩
    rw [getByRank_eq h.shape (by omega), List.getElem?_eq_getElem]

end

theorem range_eq_slice_twoAdds : ∃ z, run make twoAdds = some z ∧ z.range 1 2 true = some [("a", 1)] ∧
    ∃ a, z.skipList.getByRank 2 = some (some a) := by
  obtain ⟨z, nodes, hrun, hrep, helements⟩ := exists_twoAdds
  obtain ⟨hranges, hranks⟩ := range_eq_slice hrep
  have hlen : z.len = 2 := by
    have hlength := congrArg List.length helements
    rw [elements_of_shape hrep.shape, List.length_map] at hlength
    exact hrep.shape.length.trans (congrArg Nat.cast hlength)
  have hrange := (hranges 1 2 (by rw [hlen]; decide) (by rw [hlen]; decide)).2
  obtain ⟨a, -, hrank⟩ := hranks 2 (by rw [hlen]; decide)
  rw [helements] at hrange
  exact ⟨z, hrun, hrange, a, hrank⟩

/-- The ranks are the positions from either end, and they are -1 for a member that is absent. -/
def RankIsPosition (z : SortedSet σ μ) (member : μ) : Prop :=
  (∀ (p : Nat) (score : σ), z.elements[p]? = some (member, score) →
    z.getRank member false = some (p : Int) ∧ z.getRank member true = some (z.len - 1 - p)) ∧
  (z.getRank member false = some (-1) ↔ ∀ e ∈ z.elements, e.1 ≠ member) ∧
  (z.getRank member true = some (-1) ↔ ∀ e ∈ z.elements, e.1 ≠ member)

theorem getRank_of (hd : z.dict member = some score) {rank : Option Int}
    (hr : z.skipList.getRank member score = some rank) (desc : Bool) :
    z.getRank member desc =
      some (rank.elim (-1) fun rank => if desc then z.skipList.length - rank else rank - 1) := by
  rw [SortedSet.getRank, hd]
  simp only [hr, Option.bind_eq_bind, Option.bind_some]
  cases rank <;> rfl

variable [Inhabited μ]

theorem Sound.absent (h : Sound z nodes) (habsent : ∀ e ∈ z.elements, e.1 ≠ member) :
    ∀ a ∈ nodes, z.skipList.member a ≠ member := by
  intro a ha
  apply habsent (z.skipList.element a)
  rw [h.elements_eq]
  exact List.mem_map_of_mem ha

/-- A search that does not stop at the header answers the position. -/
theorem Sound.rankIsPosition (h : Sound z nodes)
    (hheader : z.skipList.member SkipList.header = member → ∀ score, z.dict member = some score →
      Leaves z.skipList member score) : RankIsPosition z member := by
  have hposition (p : Nat) (score : σ) (he : z.elements[p]? = some (member, score)) :
      z.getRank member false = some (p : Int) ∧ z.getRank member true = some (z.len - 1 - p) := by
    obtain ⟨front, x, back, rfl, rfl, hx⟩ := nodes_split h.shape he
    obtain ⟨rfl, rfl⟩ := Prod.mk.inj hx
    have hd := h.dict x (by simp)
    have hr := h.shape.getRank_present
      (fun a ha hm => keyed_member_inj h.shape h.dict ha (by simp) hm) fun hm => hheader hm _ hd
    rw [getRank_of hd hr, getRank_of hd hr, len]
    simp only [Option.elim_some, if_true, Bool.false_eq_true, if_false, Option.some.injEq]
    omega
  have habsent (hnone : ∀ e ∈ z.elements, e.1 ≠ member) (desc : Bool) : z.getRank member desc = some (-1) := by
    cases hd : z.dict member with
    | none => rw [SortedSet.getRank, hd]
    | some score =>
        exact getRank_of hd (h.shape.getRank_absent (h.absent hnone) fun hm => hheader hm score hd) desc
  have hpresent (hsome : ¬ ∀ e ∈ z.elements, e.1 ≠ member) :
      ∃ p score, p < z.elements.length ∧ z.elements[p]? = some (member, score) := by
    simp only [not_forall, not_not] at hsome
    obtain ⟨⟨m, score⟩, he, rfl⟩ := hsome
    obtain ⟨p, hp, hget⟩ := List.getElem_of_mem he
    exact ⟨p, score, hp, List.getElem?_eq_some_iff.mpr ⟨hp, hget⟩⟩
  have hlen : z.len = z.elements.length := by
    rw [h.elements_eq, List.length_map]
    exact h.shape.length
  refine ⟨hposition, ⟨fun hrank => ?_, fun hnone => habsent hnone false⟩,
    ⟨fun hrank => ?_, fun hnone => habsent hnone true⟩⟩ <;> by_contra hsome <;>
    obtain ⟨p, score, hp, he⟩ := hpresent hsome
  · rw [(hposition p score he).1, Option.some.injEq] at hrank
    omega
  · rw [(hposition p score he).2, Option.some.injEq] at hrank
    omega

variable [Inhabited σ]

end SortedSet

end Traitor
