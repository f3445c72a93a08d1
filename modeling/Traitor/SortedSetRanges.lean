import Traitor.SortedSetRuns

namespace Traitor

open Lib.SkipChain Lib.Windows

namespace ScoreBorder

variable {σ : Type} [LinearOrder σ] {min max : ScoreBorder σ} {x y : σ}

/-- The first test of a range compares the values of infinite borders too. -/
def Crossed (min max : ScoreBorder σ) : Prop :=
  min.value > max.value ∨ (min.value = max.value ∧ (min.exclude ∨ max.exclude))

instance : Decidable (min.Crossed max) := inferInstanceAs (Decidable (_ ∨ _))

theorem greater_mono (hxy : x ≤ y) (hy : max.greater y = true) : max.greater x = true := by
  rcases max with ⟨_ | _ | _, value, exclude⟩
  · cases hy
  · cases exclude with
    | false =>
        simp only [greater, Bool.false_eq_true, if_false, decide_eq_true_eq] at hy ⊢
        exact le_trans hxy hy
    | true =>
        simp only [greater, if_true, decide_eq_true_eq] at hy ⊢
        exact lt_of_le_of_lt hxy hy
  · rfl

theorem le_of_less (hmin : min.inf = .finite) (h : min.less x = true) :
    min.value ≤ x ∧ (min.exclude = true → min.value < x) := by
  rw [less, hmin] at h
  cases hexclude : min.exclude with
  | false =>
      simp only [hexclude, Bool.false_eq_true, if_false, decide_eq_true_eq] at h
      exact ⟨h, by simp⟩
  | true =>
      simp only [hexclude, if_true, decide_eq_true_eq] at h
      exact ⟨h.le, fun _ => h⟩

theorem le_of_greater (hmax : max.inf = .finite) (h : max.greater x = true) :
    x ≤ max.value ∧ (max.exclude = true → x < max.value) := by
  rw [greater, hmax] at h
  cases hexclude : max.exclude with
  | false =>
      simp only [hexclude, Bool.false_eq_true, if_false, decide_eq_true_eq] at h
      exact ⟨h, by simp⟩
  | true =>
      simp only [hexclude, if_true, decide_eq_true_eq] at h
      exact ⟨h.le, fun _ => h⟩

/-- Finite borders with a score between them pass the test. -/
theorem not_crossed (hmin : min.inf = .finite) (hmax : max.inf = .finite) (hless : min.less x = true)
    (hgreater : max.greater x = true) : ¬ Crossed min max := by
  obtain ⟨hlow, hlow'⟩ := le_of_less hmin hless
  obtain ⟨hhigh, hhigh'⟩ := le_of_greater hmax hgreater
  rintro (hgt | ⟨heq, hexclude | hexclude⟩)
  · exact absurd (hlow.trans hhigh) (not_le.mpr hgt)
  · exact absurd heq ((hlow' hexclude).trans_le hhigh).ne
  · exact absurd heq (hlow.trans_lt (hhigh' hexclude)).ne

end ScoreBorder

namespace SkipList

variable {σ μ γ : Type} {s : SkipList σ μ} {nodes front back below inside above : List Addr} {desc : Bool}

def Leads (s : SkipList σ μ) (desc : Bool) : List Addr → Prop
  | [] => True
  | a :: l => s.next desc a = some l.head? ∧ Leads s desc l

theorem Leads.skip {l : List Addr} (h : Leads s desc l) (offset : Nat) :
    s.skip desc offset l.head? = some (l.drop offset).head? := by
  induction offset generalizing l with
  | zero => rfl
  | succ offset ih =>
      cases l with
      | nil => rfl
      | cons a l =>
          rw [List.head?_cons, SkipList.skip, h.1, Option.bind_eq_bind, Option.bind_some, ih h.2]
          rfl

theorem Leads.drop {l : List Addr} (h : Leads s desc l) (offset : Nat) : Leads s desc (l.drop offset) := by
  induction offset generalizing l with
  | zero => exact h
  | succ offset ih =>
      cases l with
      | nil => exact h
      | cons a l => exact ih h.2

def visit (consumer : γ → μ × σ → γ × Bool) : List (μ × σ) → γ → γ
  | [], acc => acc
  | e :: l, acc => if (consumer acc e).2 then visit consumer l (consumer acc e).1 else (consumer acc e).1

theorem visit_collect (l : List (μ × σ)) (acc : List (μ × σ)) :
    visit (fun slice e => (slice ++ [e], true)) l acc = acc ++ l := by
  induction l generalizing acc with
  | nil => simp [visit]
  | cons e l ih => simp [visit, ih]

theorem Leads.forEach {l : List Addr} (h : Leads s desc l) (consumer : γ → μ × σ → γ × Bool) {size : Nat}
    (hsize : size ≤ l.length) (acc : γ) :
    s.forEach desc consumer size l.head? acc = some (visit consumer ((l.take size).map s.element) acc) := by
  induction size generalizing l acc with
  | zero => rfl
  | succ size ih =>
      cases l with
      | nil => simp at hsize
      | cons a l =>
          rw [List.head?_cons, SkipList.forEach, List.take_succ_cons, List.map_cons, visit]
          rcases consumer acc (s.element a) with ⟨acc, _ | _⟩
          · rfl
          · simp only [if_true, h.1, Option.bind_eq_bind, Option.bind_some]
            exact ih h.2 (Nat.le_of_succ_le_succ hsize) acc

variable [LinearOrder σ]

def within (s : SkipList σ μ) (min max : ScoreBorder σ) (a : Addr) : Bool :=
  min.less (s.score a) && max.greater (s.score a)

theorem Leads.forEachByScore {l : List Addr} (h : Leads s desc l) (min max : ScoreBorder σ) (limit : Int)
    (consumer : γ → μ × σ → γ × Bool) {fuel : Nat} (hfuel : l.length < fuel) {i : Int}
    (hi : limit < 0 ∨ i ≤ limit) (acc : γ) :
    s.forEachByScore min max limit desc consumer fuel i l.head? acc =
      some (visit consumer ((limited (if limit < 0 then limit else limit - i)
        (onward (s.within min max) l)).map s.element) acc) := by
  induction fuel generalizing l i acc with
  | zero => omega
  | succ fuel ih =>
      cases l with
      | nil => simp [SkipList.forEachByScore, onward, limited, visit]
      | cons a l =>
          rw [List.head?_cons, SkipList.forEachByScore]
          by_cases hgoes : i < limit ∨ limit < 0
          · have hpage (rest : List Addr) : limited (if limit < 0 then limit else limit - i) (a :: rest) =
                a :: limited (if limit < 0 then limit else limit - (i + 1)) rest := by
              by_cases hneg : limit < 0
              · simp [limited, hneg]
              · have hn : (limit - i).toNat = (limit - (i + 1)).toNat + 1 := by omega
                rw [if_neg hneg, if_neg hneg, limited, limited, if_neg (by omega), if_neg (by omega), hn,
                  List.take_succ_cons]
            rw [if_pos hgoes, onward, hpage, List.map_cons, visit]
            rcases consumer acc (s.element a) with ⟨acc, _ | _⟩
            · rfl
            · simp only [if_true, h.1, Option.bind_eq_bind, Option.bind_some]
              cases l with
              | nil => simp [visit, limited]
              | cons b l =>
                  rw [List.head?_cons]
                  dsimp only
                  by_cases hb : s.within min max b = true
                  · have hrest := ih h.2 (Nat.lt_of_succ_lt_succ hfuel) (i := i + 1) (by omega) acc
                    rw [List.head?_cons, onward] at hrest
                    rw [List.takeWhile_cons_of_pos hb, ← hrest]
                    exact if_pos hb
                  · rw [List.takeWhile_cons_of_neg hb]
                    apply (if_neg hb).trans
                    simp [visit, limited]
          · have hn : limit - i = 0 := by omega
            rw [if_neg hgoes, if_neg (fun hneg => hgoes (.inr hneg)), hn]
            rfl

variable [LinearOrder μ]

theorem Shape.leads (h : Shape s (front ++ back)) : Leads s false back := by
  induction back generalizing front with
  | nil => trivial
  | cons a back ih =>
      have hheight := (h.heights a (by simp)).1
      have hrest : Shape s ((front ++ [a]) ++ back) := by simpa using h
      refine ⟨?_, ih hrest⟩
      rw [SkipList.next, if_neg (by simp), if_neg (by omega), h.next]

theorem Shape.leads_back (h : Shape s (front ++ back)) : Leads s true front.reverse := by
  induction front using List.reverseRecOn generalizing back with
  | nil => trivial
  | append_singleton front a ih =>
      have hsplit : Shape s (front ++ a :: back) := by simpa using h
      have hback := (backed_drop hsplit.backed).1
      rw [List.reverse_append, List.reverse_singleton, List.singleton_append]
      refine ⟨?_, ih hsplit⟩
      rw [SkipList.next, if_pos rfl, hback, lastOr_none, List.head?_reverse]

section

variable {min max : ScoreBorder σ}

theorem less_pairwise (h : Shape s nodes) (min : ScoreBorder σ) :
    nodes.Pairwise fun a b => min.less (s.score b) = false → min.less (s.score a) = false :=
  h.sorted.imp fun hab hb => less_mono hab.score_le hb

theorem greater_pairwise (h : Shape s nodes) (max : ScoreBorder σ) :
    nodes.Pairwise fun a b => max.greater (s.score b) = true → max.greater (s.score a) = true :=
  h.sorted.imp fun hab hb => ScoreBorder.greater_mono hab.score_le hb

abbrev Ranged (s : SkipList σ μ) (min max : ScoreBorder σ) (nodes below inside above : List Addr) : Prop :=
  Window (fun a => min.less (s.score a)) (fun a => max.greater (s.score a)) nodes below inside above

theorem Shape.exists_ranged (h : Shape s nodes) (min max : ScoreBorder σ) :
    ∃ below inside above, Ranged s min max nodes below inside above :=
  exists_window (less_pairwise h min) (greater_pairwise h max)

omit [LinearOrder μ] in
theorem hasInRange_crossed (h : min.Crossed max) : hasInRange s min max = false := if_pos h

omit [LinearOrder μ] in
theorem hasInRange_eq (h : ¬ min.Crossed max) {first last : Addr} (hfirst : s.forward header 0 = some first)
    (hlast : s.tail = some last) :
    hasInRange s min max = (min.less (s.score last) && max.greater (s.score first)) := by
  apply (if_neg h).trans
  rw [hfirst, hlast]

theorem Shape.hasInRange (h : Shape s nodes) (hr : Ranged s min max nodes below inside above)
    (hne : inside ≠ []) : hasInRange s min max = true ↔ ¬ min.Crossed max := by
  by_cases hcrossed : min.Crossed max
  · simp [hasInRange_crossed hcrossed, hcrossed]
  have hback : inside ++ above ≠ [] := by simp [hne]
  have hfront : below ++ inside ≠ [] := by simp [hne]
  have hlast : s.tail = some ((inside ++ above).getLast hback) := by
    rw [h.tail_eq, hr.eq, List.getLast?_append_of_ne_nil _ hback, List.getLast?_eq_some_getLast hback]
  have hfirst : s.forward header 0 = some ((below ++ inside).head hfront) := by
    rw [h.first_eq, hr.eq, ← List.append_assoc, List.head?_append_of_ne_nil _ hfront, List.head?_eq_some_head hfront]
  have hless : min.less (s.score ((inside ++ above).getLast hback)) = true :=
    (List.mem_append.mp (List.getLast_mem hback)).elim (fun ha => (hr.inside _ ha).1) fun ha => (hr.above _ ha).1
  have hgreater : max.greater (s.score ((below ++ inside).head hfront)) = true :=
    (List.mem_append.mp (List.head_mem hfront)).elim (hr.greater_below hne (greater_pairwise h max) _)
      fun ha => (hr.inside _ ha).2
  simp [hasInRange_eq hcrossed hfirst hlast, hless, hgreater, hcrossed]

/-- Some last node is above the lower border and some first one below the upper one. -/
theorem Shape.ends_of_hasInRange (h : Shape s nodes) (hin : SkipList.hasInRange s min max = true) :
    ∃ a ∈ nodes, ∃ b ∈ nodes, min.less (s.score a) = true ∧ max.greater (s.score b) = true := by
  have hcrossed : ¬ min.Crossed max := fun hc => by
    rw [hasInRange_crossed hc] at hin
    cases hin
  rcases List.eq_nil_or_concat nodes with rfl | ⟨front, a, rfl⟩
  · have hempty : SkipList.hasInRange s min max = false := by
      apply (if_neg hcrossed).trans
      rw [h.first_eq]
      rfl
    rw [hempty] at hin
    cases hin
  · rw [List.concat_eq_append] at h ⊢
    obtain ⟨b, hb⟩ := Option.isSome_iff_exists.mp (show (front ++ [a]).head?.isSome by simp)
    have hlast : s.tail = some a := by rw [h.tail_eq, List.getLast?_concat]
    rw [hasInRange_eq hcrossed (h.first_eq.trans hb) hlast, Bool.and_eq_true] at hin
    exact ⟨a, by simp, b, List.mem_of_mem_head? hb, hin⟩

/-- Where the range begins, when its borders pass the first test. -/
theorem Shape.getFirstInScoreRange (h : Shape s nodes) (hr : Ranged s min max nodes below inside above) :
    getFirstInScoreRange s min max =
      some (if SkipList.hasInRange s min max then inside.head? else none) := by
  rw [SkipList.getFirstInScoreRange]
  by_cases hin : SkipList.hasInRange s min max = true
  · obtain ⟨last, hlast, -, -, hless, -⟩ := h.ends_of_hasInRange hin
    have hsplit : Shape s (below ++ (inside ++ above)) := hr.eq ▸ h
    obtain ⟨found, hs, hf⟩ := hsplit.search (splits_of_forall (fun a => !min.less (s.score a))
      (fun a ha => by simp [hr.below a ha]) fun a ha => by
        simp [(List.mem_append.mp ha).elim (fun ha => (hr.inside a ha).1) fun ha => (hr.above a ha).1])
    obtain ⟨-, -, hnext⟩ := hf.zero hsplit
    rw [if_pos hin, if_pos hin, hs, Option.bind_eq_bind, Option.bind_some, hnext]
    cases inside with
    | cons a inside => simp [(hr.inside a List.mem_cons_self).2]
    | nil =>
        cases above with
        | cons a above => simp [(hr.above a List.mem_cons_self).2]
        | nil =>
            have hbelow := hr.below last (by simpa [hr.eq] using hlast)
            rw [hbelow] at hless
            cases hless
  · rw [if_neg hin, if_neg hin]

/-- Where the range ends. -/
theorem Shape.getLastInScoreRange (h : Shape s nodes) (hr : Ranged s min max nodes below inside above) :
    getLastInScoreRange s min max =
      some (if SkipList.hasInRange s min max then inside.getLast? else none) := by
  rw [SkipList.getLastInScoreRange]
  by_cases hin : SkipList.hasInRange s min max = true
  · obtain ⟨-, -, first, hfirst, -, hgreater⟩ := h.ends_of_hasInRange hin
    obtain ⟨front, back, rfl, hfront, hback⟩ := exists_split _ (greater_pairwise h max)
    obtain ⟨found, hs, hf⟩ := h.search (splits_of_forall _ hfront hback)
    obtain ⟨-, hlast, -⟩ := hf.zero h
    have hmem : first ∈ front := (List.mem_append.mp hfirst).resolve_right fun hb => by
      rw [hback first hb] at hgreater
      cases hgreater
    rw [if_pos hin, if_pos hin, hs, Option.bind_eq_bind, Option.bind_some]
    have hu : front.getLast? = some (found 0).1 := by
      rw [← lastOr_none, hlast, if_neg]
      intro hheader
      rw [if_pos hheader, lastOr_none, List.getLast?_eq_none_iff] at hlast
      rw [hlast] at hmem
      cases hmem
    have hgreater' := hfront _ (List.mem_of_getLast? hu)
    by_cases hne : inside = []
    · have hless : min.less (s.score (found 0).1) = false := by
        have hnodes : (found 0).1 ∈ below ++ (inside ++ above) :=
          hr.eq ▸ List.mem_append_left back (List.mem_of_getLast? hu)
        rw [hne, List.nil_append] at hnodes
        apply (List.mem_append.mp hnodes).elim (hr.below _)
        intro habove
        rw [(hr.above _ habove).2] at hgreater'
        cases hgreater'
      rw [hless, hne]
      rfl
    · have hsame : front = below ++ inside := by
        rw [← hr.filter_greater hne (greater_pairwise h max), List.filter_append,
          List.filter_eq_self.mpr hfront, List.filter_eq_nil_iff.mpr fun b hb => by simp [hback b hb],
          List.append_nil]
      rw [hsame, List.getLast?_append_of_ne_nil _ hne] at hu
      rw [(hr.inside _ (List.mem_of_getLast? hu)).1, hu]
      rfl
  · rw [if_neg hin, if_neg hin]

end

end SkipList

namespace SortedSet

open SkipList

variable {σ μ : Type} [LinearOrder σ] {z : SortedSet σ μ} {nodes l : List Addr} {min max : ScoreBorder σ}
  {below inside above : List (μ × σ)} {desc : Bool} {offset limit : Int}

def inRange (min max : ScoreBorder σ) (e : μ × σ) : Bool := min.less e.2 && max.greater e.2

/-- What is left of the loop from a node that leads through a list. -/
theorem rangeByScore_of_start [LinearOrder μ] (hleads : Leads z.skipList desc l)
    (hlength : l.length ≤ z.skipList.length.toNat)
    (hstart : (if desc then z.skipList.getLastInScoreRange min max
      else z.skipList.getFirstInScoreRange min max) = some l.head?)
    (hlimit : limit ≠ 0) (hoffset : 0 ≤ offset) :
    z.rangeByScore min max offset limit desc =
      some (limited limit (onward (inRange min max) ((l.map z.skipList.element).drop offset.toNat))) := by
  have hfuel : (l.drop offset.toNat).length < z.skipList.length.toNat + 1 := by
    rw [List.length_drop]
    omega
  have hrest : (z.skipList.skip desc offset.toNat l.head?).bind (fun node =>
      z.skipList.forEachByScore min max limit desc (fun slice e => (slice ++ [e], true))
        (z.skipList.length.toNat + 1) 0 node []) =
      some (limited limit (onward (inRange min max) ((l.map z.skipList.element).drop offset.toNat))) := by
    have hlimit' : (if limit < 0 then limit else limit - 0) = limit := by omega
    rw [hleads.skip, Option.bind_some, (hleads.drop offset.toNat).forEachByScore min max limit _ hfuel (by omega),
      visit_collect, List.nil_append, ← List.map_drop, onward_map, limited_map, hlimit']
    rfl
  rw [rangeByScore, if_neg (by omega), SortedSet.forEachByScore]
  cases desc with
  | false =>
      rw [if_neg (by simp)] at hstart ⊢
      rw [hstart]
      exact hrest
  | true =>
      rw [if_pos rfl] at hstart ⊢
      rw [hstart]
      exact hrest

/-- What a page of a range is, when its window has elements and its borders pass the first test, and
what the count of a range is. -/
structure Paged [LinearOrder μ] (z : SortedSet σ μ) (min max : ScoreBorder σ)
    (below inside above : List (μ × σ)) : Prop where
  window : Window (fun e => min.less e.2) (fun e => max.greater e.2) z.elements below inside above
  nothing : inside = [] ∨ min.Crossed max → ∀ offset limit desc,
    z.rangeByScore min max offset limit desc = some []
  page : inside ≠ [] → ¬ min.Crossed max → ∀ offset limit desc, limit ≠ 0 → 0 ≤ offset →
    z.rangeByScore min max offset limit desc = some (limited limit (onward (inRange min max)
      ((if desc then inside.reverse ++ below.reverse else inside ++ above).drop offset.toNat)))

theorem exists_paged [LinearOrder μ] (h : Shape z.skipList nodes) (min max : ScoreBorder σ) :
    ∃ below inside above, Paged z min max below inside above := by
  obtain ⟨below, inside, above, hr⟩ := h.exists_ranged min max
  have hlength : z.skipList.length.toNat = nodes.length := by rw [h.length, Int.toNat_natCast]
  have helements : z.elements = nodes.map z.skipList.element := elements_of_shape h
  have hsplit : Shape z.skipList (below ++ (inside ++ above)) := hr.eq ▸ h
  have hsplit' : Shape z.skipList ((below ++ inside) ++ above) := by rwa [List.append_assoc]
  have hlengths := congrArg List.length hr.eq
  simp only [List.length_append] at hlengths
  have hwindow : Window (fun e : μ × σ => min.less e.2) (fun e => max.greater e.2) z.elements
      (below.map z.skipList.element) (inside.map z.skipList.element) (above.map z.skipList.element) := by
    rw [helements]
    exact Window.map (f := z.skipList.element) hr
  refine ⟨below.map z.skipList.element, inside.map z.skipList.element, above.map z.skipList.element, hwindow,
    fun hnone offset limit desc => ?_, fun hne hcrossed offset limit desc hlimit hoffset => ?_⟩
  · by_cases hpage : limit = 0 ∨ offset < 0
    · exact if_pos hpage
    · rw [not_or, not_lt] at hpage
      have hstart : (if desc then z.skipList.getLastInScoreRange min max
          else z.skipList.getFirstInScoreRange min max) = some none := by
        rw [h.getFirstInScoreRange hr, h.getLastInScoreRange hr]
        rcases hnone with hnil | hcrossed
        · rw [List.map_eq_nil_iff] at hnil
          simp [hnil]
        · simp [hasInRange_crossed hcrossed]
      have hnothing := rangeByScore_of_start (l := []) trivial (Nat.zero_le _) hstart hpage.1 hpage.2
      rw [hnothing, List.map_nil, List.drop_nil, onward, limited_nil]
  · have hin : z.skipList.hasInRange min max = true :=
      (h.hasInRange hr fun hnil => hne (by rw [hnil, List.map_nil])).mpr hcrossed
    cases desc with
    | false =>
        have hstart : z.skipList.getFirstInScoreRange min max = some (inside ++ above).head? := by
          rw [h.getFirstInScoreRange hr, if_pos hin, List.head?_append_of_ne_nil]
          exact fun hnil => hne (by rw [hnil, List.map_nil])
        have hsize : (inside ++ above).length ≤ z.skipList.length.toNat := by
          rw [List.length_append]
          omega
        apply (rangeByScore_of_start hsplit.leads hsize hstart hlimit hoffset).trans
        rw [if_neg (by simp), List.map_append]
    | true =>
        have hstart : z.skipList.getLastInScoreRange min max = some (below ++ inside).reverse.head? := by
          rw [h.getLastInScoreRange hr, if_pos hin, List.head?_reverse, List.getLast?_append_of_ne_nil]
          exact fun hnil => hne (by rw [hnil, List.map_nil])
        have hsize : (below ++ inside).reverse.length ≤ z.skipList.length.toNat := by
          rw [List.length_reverse, List.length_append]
          omega
        apply (rangeByScore_of_start hsplit'.leads_back hsize hstart hlimit hoffset).trans
        rw [if_pos rfl, List.reverse_append, List.map_append, List.map_reverse, List.map_reverse]

def counter (min max : ScoreBorder σ) (i : Int) (e : μ × σ) : Int × Bool :=
  if min.less e.2 = false then (i, true)
  else if max.greater e.2 = false then (i, false)
  else (i + 1, true)

theorem visit_counter {l : List (μ × σ)}
    (hw : Window (fun e => min.less e.2) (fun e => max.greater e.2) l below inside above) (i : Int) :
    visit (counter min max) l i = i + inside.length := by
  obtain ⟨rfl, hbelow, hinside, habove⟩ := hw
  induction below with
  | cons e below ih =>
      have he : counter min max i e = (i, true) := if_pos (hbelow e List.mem_cons_self)
      rw [List.cons_append, visit, he, if_pos rfl]
      exact ih fun e he => hbelow e (List.mem_cons_of_mem _ he)
  | nil =>
      rw [List.nil_append]
      induction inside generalizing i with
      | cons e inside ih =>
          obtain ⟨hless, hgreater⟩ := hinside e List.mem_cons_self
          have he : counter min max i e = (i + 1, true) := by
            rw [counter, if_neg (by simp [hless]), if_neg (by simp [hgreater])]
          rw [List.cons_append, visit, he, if_pos rfl, ih _ fun e he => hinside e (List.mem_cons_of_mem _ he),
            List.length_cons]
          omega
      | nil =>
          cases above with
          | nil => simp [visit]
          | cons e above =>
              obtain ⟨hless, hgreater⟩ := habove e List.mem_cons_self
              have he : counter min max i e = (i, false) := by
                rw [counter, if_neg (by simp [hless]), if_pos hgreater]
              rw [List.nil_append, visit, he, if_neg (by simp)]
              simp

section

variable [LinearOrder μ] [Inhabited μ]

omit [Inhabited μ] in
theorem count_empty (h : Shape z.skipList []) (min max : ScoreBorder σ) : z.count min max = none := by
  rw [count, SortedSet.forEach, if_pos]
  rw [len, h.length]
  simp

omit [Inhabited μ] in
theorem count_eq_visit (h : Shape z.skipList nodes) (hne : nodes ≠ []) (min max : ScoreBorder σ) :
    z.count min max = some (visit (counter min max) z.elements 0) := by
  have hlen : z.len = nodes.length := h.length
  have hpos := List.length_pos_iff.mpr hne
  have hsplit : Shape z.skipList ([] ++ nodes) := h
  have hvisit := hsplit.leads.forEach (counter min max) (Nat.le_refl nodes.length) 0
  rw [List.take_length, ← h.nodes_eq, ← elements, h.nodes_eq] at hvisit
  rw [SortedSet.count, SortedSet.forEach, hlen, if_neg (by omega), if_neg (by omega), if_neg (by simp),
    if_neg (by omega), h.first_eq, Int.sub_zero, Int.toNat_natCast]
  exact hvisit

omit [Inhabited μ] in
theorem Paged.count (h : Shape z.skipList nodes) (hne : nodes ≠ [])
    (hp : Paged z min max below inside above) : z.count min max = some (inside.length : Int) := by
  rw [count_eq_visit h hne, visit_counter hp.window, Int.zero_add]

/-- The elements are those of different members, by score and then by member. -/
theorem Sound.elements_sorted (h : Sound z nodes) :
    z.elements.Pairwise fun e e' => e.2 < e'.2 ∨ e.2 = e'.2 ∧ e.1 < e'.1 := by
  rw [h.elements_eq, List.pairwise_map]
  exact h.shape.sorted

/-- The elements are sorted, the ranges without a limit are the filtered elements, and the count is
their number. -/
def RangesByFilter (z : SortedSet σ μ) (min max : ScoreBorder σ) : Prop :=
  (z.elements.Pairwise fun e e' => e.2 < e'.2 ∨ e.2 = e'.2 ∧ e.1 < e'.1) ∧
    z.rangeByScore min max 0 (-1) false = some (z.elements.filter (inRange min max)) ∧
    z.rangeByScore min max 0 (-1) true = some (z.elements.filter (inRange min max)).reverse ∧
    z.count min max = some ((z.elements.filter (inRange min max)).length : Int)

omit [Inhabited μ] in
theorem Paged.whole (hp : Paged z min max below inside above) (hcrossed : inside ≠ [] → ¬ min.Crossed max)
    (desc : Bool) : z.rangeByScore min max 0 (-1) desc = some (if desc then inside.reverse else inside) := by
  by_cases hinside : inside = []
  · rw [hp.nothing (.inl hinside), hinside, List.reverse_nil, ite_self]
  · rw [hp.page hinside (hcrossed hinside) 0 (-1) desc (by decide) (Int.le_refl 0), Int.toNat_zero, List.drop_zero]
    cases desc with
    | false =>
        rw [if_neg (by simp), if_neg (by simp), onward_append _ _ hinside]
        · rfl
        · exact fun e he => by simp [inRange, hp.window.inside e he]
        · exact fun e he => by simp [inRange, hp.window.above e he]
    | true =>
        rw [if_pos rfl, if_pos rfl, onward_append _ _ (by simpa using hinside)]
        · rfl
        · exact fun e he => by simp [inRange, hp.window.inside e (List.mem_reverse.mp he)]
        · exact fun e he => by simp [inRange, hp.window.below e (List.mem_reverse.mp he)]

variable [Inhabited σ]

def PagesByScore (z : SortedSet σ μ) (min max : ScoreBorder σ) (offset limit : Int) (desc : Bool) : Prop :=
  let ranged := z.elements.filter (inRange min max)
  z.rangeByScore min max offset limit desc =
    some (limited limit ((if desc then ranged.reverse else ranged).drop offset.toNat))

def onwards (z : SortedSet σ μ) (min max : ScoreBorder σ) (desc : Bool) : List (μ × σ) :=
  z.elements.filter fun e => if desc then max.greater e.2 else min.less e.2

end

end SortedSet

end Traitor
