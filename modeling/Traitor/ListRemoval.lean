import Traitor.StoredList

namespace Traitor.QuickList

variable {α : Type} {data : List (Page α)} {iter : Iterator} {before after last : List α} {val : α}
  {size : Int}

def Last (data : List (Page α)) (last : List α) : Prop :=
  ∃ front page, data = front ++ [page] ∧ page.elems = last

theorem Last.suffix (h : Last data last) : ∃ front, elemsOf data = front ++ last := by
  obtain ⟨front, page, rfl, rfl⟩ := h
  exact ⟨elemsOf front, by simp⟩

theorem Points.exists_last (h : Points data iter before val after) : ∃ last, Last data last := by
  obtain ⟨pre, cap, post, left, right, rfl, -⟩ := h
  rcases List.eq_nil_or_concat' post with rfl | ⟨post, page, rfl⟩
  · exact ⟨_, pre, _, rfl, rfl⟩
  · exact ⟨_, pre ++ ⟨left ++ val :: right, cap⟩ :: post, page, by simp, rfl⟩

theorem atEnd_of_back {front : List (Page α)} {page : Page α} {k : Int} (hk : k = page.elems.length) :
    (⟨some front.length, k⟩ : Iterator).atEnd ⟨front ++ [page], size⟩ = some true := by
  simp [Iterator.atEnd, Iterator.back, Iterator.page, hk]

theorem Points.atEnd (h : Points data iter before val after) (size : Int) :
    iter.atEnd ⟨data, size⟩ = some false := by
  obtain ⟨pre, cap, post, left, right, rfl, rfl, rfl, rfl⟩ := h
  rw [Iterator.atEnd, if_neg (by simp)]
  by_cases hback : some pre.length =
      Iterator.back ⟨pre ++ ⟨left ++ val :: right, cap⟩ :: post, size⟩
  · have hpage : Iterator.page ⟨some pre.length, left.length⟩
        ⟨pre ++ ⟨left ++ val :: right, cap⟩ :: post, size⟩ = some ⟨left ++ val :: right, cap⟩ := by
      simp [Iterator.page]
    have hne : (left.length : Int) ≠ (left ++ val :: right).length := by
      rw [List.length_append, List.length_cons]
      omega
    rw [if_neg (not_not.mpr hback), hpage, Option.map_some, Option.some_inj]
    exact decide_eq_false hne
  · rw [if_pos hback]

theorem Points.next_end (h : Points data iter before val []) (size : Int) (hpages : NoEmptyPage data) :
    ∃ iter', iter.next ⟨data, size⟩ = some (iter', false) ∧ iter'.atEnd ⟨data, size⟩ = some true := by
  obtain ⟨pre, cap, post, left, right, rfl, rfl, rfl, hafter⟩ := h
  obtain ⟨rfl, hpost⟩ := List.append_eq_nil_iff.mp hafter.symm
  cases post with
  | nil =>
      refine ⟨⟨some pre.length, (left ++ [val]).length⟩, ?_, atEnd_of_back rfl⟩
      simp [Iterator.next, Iterator.page, Iterator.back]
  | cons page post =>
      have hne := hpages page (by simp)
      simp [hne] at hpost

inductive Shrinks (val : α) (after last last' : List α) : Prop
  | elsewhere (front : List α) (hafter : after = front ++ last) (heq : last' = last)
  | within (left : List α) (hlast : last = left ++ val :: after) (heq : last' = left ++ after)

/-- The last page loses its last element, and vanishes when it was the only one. -/
inductive Ends (data' : List (Page α)) (iter' : Iterator) (val : α) (last : List α) : Prop
  | kept (left : List α) (hlast : last = left ++ [val]) (hne : left ≠ []) (hleft : Last data' left)
      (hend : ∀ size, iter'.atEnd ⟨data', size⟩ = some true)
      (hprev : ∀ size, ∃ iter'' before' b, iter'.prev ⟨data', size⟩ = some (iter'', true) ∧
        Points data' iter'' before' b [])
  | gone (hlast : last = [val]) (hiter : iter' = ⟨none, 0⟩)

theorem Last.eq {front : List (Page α)} {page : Page α} (h : Last (front ++ [page]) last) :
    last = page.elems := by
  obtain ⟨front', page', heq, rfl⟩ := h
  rw [List.singleton_inj.mp (List.append_inj' heq rfl).2]

theorem Last.append (front : List (Page α)) {rest : List (Page α)} (h : Last rest last) :
    Last (front ++ rest) last := by
  obtain ⟨front', page, rfl, rfl⟩ := h
  exact ⟨front ++ front', page, by simp, rfl⟩

theorem Last.of_append {front rest : List (Page α)} (h : Last (front ++ rest) last) (hne : rest ≠ []) :
    Last rest last := by
  obtain ⟨mid, page, rfl⟩ := (List.eq_nil_or_concat' rest).resolve_left hne
  rw [← List.append_assoc] at h
  exact ⟨mid, page, rfl, h.eq.symm⟩

theorem Points.remove_last (h : Points data iter before val []) (hl : Last data last) (size : Int)
    (hpages : NoEmptyPage data) :
    ∃ data' iter', iter.remove ⟨data, size⟩ = some (⟨data', size - 1⟩, iter', val) ∧
      elemsOf data' = before ∧ NoEmptyPage data' ∧ Ends data' iter' val last := by
  have hget := h.get size
  obtain ⟨pre, cap, post, left, right, rfl, rfl, rfl, hafter⟩ := h
  obtain ⟨rfl, hpost⟩ := List.append_eq_nil_iff.mp hafter.symm
  cases post with
  | cons page post =>
      have hne := hpages page (by simp)
      simp [hne] at hpost
  | nil =>
      have hlast : last = left ++ [val] := hl.eq
      have hpage : (pre ++ [(⟨left ++ [val], cap⟩ : Page α)])[pre.length]? =
          some ⟨left ++ [val], cap⟩ := by simp
      have hset : (pre ++ [(⟨left ++ [val], cap⟩ : Page α)]).set pre.length ⟨left ++ [], cap⟩ =
          pre ++ [⟨left ++ [], cap⟩] := by simp
      have hback : some pre.length = Iterator.back (⟨pre ++ [⟨left ++ [val], cap⟩], size⟩ : QuickList α) := by
        simp [Iterator.back]
      simp only [noEmptyPage_append, noEmptyPage_cons] at hpages
      simp only [Iterator.remove, Option.bind_eq_bind, Option.bind_some, hpage, hget,
        Int.toNat_natCast, eraseIdx_append_length, hset]
      by_cases hnil : left = []
      · subst hnil
        rw [if_neg (by simp), if_pos hback]
        exact ⟨_, _, rfl, by simp, by simpa using hpages.1, .gone hlast rfl⟩
      · rw [if_pos (by simpa using hnil), if_neg (fun h => h.2 hback)]
        obtain ⟨left, b, rfl⟩ := (List.eq_nil_or_concat' left).resolve_left hnil
        refine ⟨_, _, rfl, by simp, by simp [hpages.1], .kept _ hlast hnil ⟨pre, _, rfl, by simp⟩
          (fun size => atEnd_of_back (by simp)) fun size => ?_⟩
        refine ⟨⟨some pre.length, left.length⟩, _, b, ?_, pre, cap, [], left, [], by simp, rfl, rfl,
          by simp⟩
        have hpos : (0 : Int) < ((left ++ [b]).length : Nat) := by
          rw [List.length_append, List.length_singleton]
          omega
        have hsub : (((left ++ [b]).length : Nat) : Int) - 1 = left.length := by
          rw [List.length_append, List.length_singleton]
          omega
        rw [Iterator.prev, if_pos hpos, hsub]

theorem Points.remove_inner {a : α} (h : Points data iter before val (a :: after)) (hl : Last data last)
    (size : Int) (hpages : NoEmptyPage data) :
    ∃ data' iter' last', iter.remove ⟨data, size⟩ = some (⟨data', size - 1⟩, iter', val) ∧
      Points data' iter' before a after ∧ NoEmptyPage data' ∧ Last data' last' ∧
      Shrinks val (a :: after) last last' := by
  have hget := h.get size
  obtain ⟨pre, cap, post, left, right, rfl, rfl, rfl, hafter⟩ := h
  have hpage : (pre ++ ⟨left ++ val :: right, cap⟩ :: post)[pre.length]? =
      some ⟨left ++ val :: right, cap⟩ := by simp
  have hset : (pre ++ ⟨left ++ val :: right, cap⟩ :: post).set pre.length ⟨left ++ right, cap⟩ =
      pre ++ ⟨left ++ right, cap⟩ :: post := by simp
  simp only [noEmptyPage_append, noEmptyPage_cons] at hpages
  simp only [Iterator.remove, Option.bind_eq_bind, Option.bind_some, hpage, hget,
    Int.toNat_natCast, eraseIdx_append_length, hset]
  cases right with
  | cons r right =>
      obtain ⟨rfl, rfl⟩ := List.cons.inj hafter
      rw [if_pos (by simp), if_neg (by simp; omega)]
      have hrest : NoEmptyPage (pre ++ ⟨left ++ a :: right, cap⟩ :: post) := by
        simp [hpages.1, hpages.2.2]
      have hpoints : Points (pre ++ ⟨left ++ a :: right, cap⟩ :: post) ⟨some pre.length, left.length⟩
          (elemsOf pre ++ left) a (right ++ elemsOf post) :=
        ⟨pre, cap, post, left, right, rfl, rfl, rfl, rfl⟩
      by_cases hpost : post = []
      · subst hpost
        refine ⟨_, _, _, rfl, hpoints, hrest, ⟨pre, _, rfl, rfl⟩, .within left ?_ ?_⟩
        · simpa using hl.eq
        · simp
      · have hlast : Last post last := by
          have hall : Last ((pre ++ [⟨left ++ val :: a :: right, cap⟩]) ++ post) last := by
            simpa using hl
          exact hall.of_append hpost
        obtain ⟨front, hfront⟩ := hlast.suffix
        refine ⟨_, _, last, rfl, hpoints, hrest, ?_, .elsewhere (a :: right ++ front) ?_ rfl⟩
        · exact Last.append pre (Last.append [⟨left ++ a :: right, cap⟩] hlast)
        · simp [hfront]
  | nil =>
      have hpost : post ≠ [] := by
        rintro rfl
        simp at hafter
      have hback : some pre.length ≠
          Iterator.back (⟨pre ++ ⟨left ++ [val], cap⟩ :: post, size⟩ : QuickList α) := by
        simp [Iterator.back, List.length_eq_zero_iff, hpost]
      have hlast : Last post last := by
        have hall : Last ((pre ++ [⟨left ++ [val], cap⟩]) ++ post) last := by simpa using hl
        exact hall.of_append hpost
      obtain ⟨front, hfront⟩ := hlast.suffix
      have helsewhere : a :: after = front ++ last := hafter.trans (by simpa using hfront)
      cases post with
      | nil => exact absurd rfl hpost
      | cons page post =>
          obtain ⟨elems, pageCap⟩ := page
          obtain ⟨r, right, rfl⟩ := List.exists_cons_of_ne_nil (hpages.2.2 _ List.mem_cons_self)
          obtain ⟨rfl, rfl⟩ := List.cons.inj hafter
          have hrest : NoEmptyPage (pre ++ ⟨a :: right, pageCap⟩ :: post) := by
            rw [noEmptyPage_append]
            exact ⟨hpages.1, hpages.2.2⟩
          by_cases hnil : left = []
          · subst hnil
            rw [if_neg (by simp), if_neg hback]
            refine ⟨_, _, last, rfl, ⟨pre, pageCap, post, [], right, ?_, by simp, by simp, rfl⟩, ?_, ?_,
              .elsewhere front helsewhere rfl⟩
            · simp
            · simpa using hrest
            · simpa using hlast.append pre
          · rw [if_pos (by simpa using hnil), if_pos ⟨by simp, hback⟩]
            refine ⟨_, _, last, rfl, ⟨pre ++ [⟨left ++ [], cap⟩], pageCap, post, [], right, ?_, by simp,
              by simp, rfl⟩, ?_, ?_, .elsewhere front helsewhere rfl⟩
            · simp
            · simpa [hnil] using hrest
            · exact Last.append pre (Last.append [⟨left ++ [], cap⟩] hlast)

section

variable {expected : α → Bool} {count : Int} {removed : Nat}

/-- A pass from the front on, with `rest` before it, takes the last page away before it
has removed as many elements as it shall, and leaves others. -/
def Sinks (expected : α → Bool) (count : Int) (before rest last : List α) (removed : Nat) : Prop :=
  (∃ front, rest = front ++ last ∧ (before ≠ [] ∨ ∃ a ∈ front, expected a = false)) ∧
    (∀ a ∈ last, expected a = true) ∧
    ¬ (removed < count ∧ count ≤ removed + rest.countP expected)

theorem sinks_next (hv : expected val = false) :
    Sinks expected count before (val :: after) last removed ↔
      Sinks expected count (before ++ [val]) after last removed := by
  have hcount : (val :: after).countP expected = after.countP expected := by simp [hv]
  rw [Sinks, Sinks, hcount]
  constructor
  · rintro ⟨⟨front, hrest, -⟩, hlast, hlimit⟩
    cases front with
    | nil =>
        rw [List.nil_append] at hrest
        simp [hlast val (hrest ▸ List.mem_cons_self)] at hv
    | cons a front =>
        obtain ⟨rfl, hafter⟩ := List.cons.inj hrest
        exact ⟨⟨front, hafter, .inl (by simp)⟩, hlast, hlimit⟩
  · rintro ⟨⟨front, hafter, -⟩, hlast, hlimit⟩
    exact ⟨⟨val :: front, by rw [hafter, List.cons_append], .inr ⟨val, List.mem_cons_self, hv⟩⟩,
      hlast, hlimit⟩

theorem sinks_remove {last' : List α} (hv : expected val = true) (hs : Shrinks val after last last')
    (hcount : (removed + 1 : Int) ≠ count) :
    Sinks expected count before (val :: after) last removed ↔
      Sinks expected count before after last' (removed + 1) := by
  have hlimit : (removed < count ∧ count ≤ removed + (val :: after).countP expected) ↔
      (((removed + 1 : Nat) : Int) < count ∧ count ≤ ((removed + 1 : Nat) : Int) + after.countP expected) := by
    rw [List.countP_cons_of_pos hv]
    omega
  rw [Sinks, Sinks, hlimit]
  cases hs with
  | elsewhere mid hafter heq =>
      subst heq
      refine and_congr_left' ⟨?_, ?_⟩
      · rintro ⟨front, hrest, hleft⟩
        cases front with
        | nil =>
            have hlength := congrArg List.length hrest
            rw [hafter] at hlength
            simp at hlength
            omega
        | cons a front =>
            obtain ⟨rfl, hfront⟩ := List.cons.inj hrest
            refine ⟨front, hfront, hleft.imp_right ?_⟩
            rintro ⟨b, hb, hfalse⟩
            rcases List.mem_cons.mp hb with rfl | hb
            · simp [hv] at hfalse
            · exact ⟨b, hb, hfalse⟩
      · rintro ⟨front, hfront, hleft⟩
        refine ⟨val :: front, by rw [hfront, List.cons_append], hleft.imp_right ?_⟩
        rintro ⟨b, hb, hfalse⟩
        exact ⟨b, List.mem_cons_of_mem _ hb, hfalse⟩
  | within left hlast heq =>
      subst hlast heq
      constructor
      · rintro ⟨⟨front, hrest, hleft⟩, hall, hcount⟩
        have hlength := congrArg List.length hrest
        simp only [List.length_append, List.length_cons] at hlength
        obtain rfl : front = [] := List.eq_nil_of_length_eq_zero (by omega)
        obtain rfl : left = [] := List.eq_nil_of_length_eq_zero (by omega)
        exact ⟨⟨[], rfl, hleft⟩, fun a ha => hall a (by simp at ha; simp [ha]), hcount⟩
      · rintro ⟨⟨front, hrest, hleft⟩, hall, hcount⟩
        have hlength := congrArg List.length hrest
        simp only [List.length_append] at hlength
        obtain rfl : front = [] := List.eq_nil_of_length_eq_zero (by omega)
        obtain rfl : left = [] := List.eq_nil_of_length_eq_zero (by omega)
        refine ⟨⟨[], rfl, hleft⟩, fun a ha => ?_, hcount⟩
        rcases List.mem_cons.mp ha with rfl | ha
        · exact hv
        · exact hall a ha

theorem Last.ne_nil (hl : Last data last) (hpages : NoEmptyPage data) : last ≠ [] := by
  obtain ⟨front, page, rfl, rfl⟩ := hl
  exact hpages page (by simp)

theorem elemsOf_eq_nil (hpages : NoEmptyPage data) : elemsOf data = [] ↔ data = [] := by
  cases data with
  | nil => simp
  | cons page pages =>
      have hne := hpages page List.mem_cons_self
      simp [hne]

theorem not_sinks_single (h : val ∉ last ∨ 1 < last.length ∨ before = [])
    (hne : last ≠ []) : ¬ Sinks expected count before [val] last removed := by
  rintro ⟨⟨front, hrest, hleft⟩, -⟩
  have hlength := congrArg List.length hrest
  have hpos := List.length_pos_iff.mpr hne
  simp only [List.length_append, List.length_cons, List.length_nil] at hlength
  obtain rfl : front = [] := List.eq_nil_of_length_eq_zero (by omega)
  rw [List.nil_append] at hrest
  rcases h with h | h | rfl
  · exact h (hrest ▸ List.mem_cons_self)
  · omega
  · simp at hleft

theorem removeLoop_end {fuel : Nat} {ql : QuickList α} (hfuel : 0 < fuel) (h : iter.atEnd ql = some true) :
    removeLoop expected count fuel ql iter removed = (ql, some removed) := by
  cases fuel with
  | zero => omega
  | succ fuel => rw [removeLoop, h]

/-- The iterator of a list whose last page is gone is nowhere. -/
theorem removeLoop_nowhere {ql : QuickList α} (h : ql.data ≠ []) (fuel : Nat) :
    (removeLoop expected count fuel ql ⟨none, 0⟩ removed).2 = none := by
  cases fuel with
  | zero => rfl
  | succ fuel =>
      rw [removeLoop]
      simp [Iterator.atEnd, Iterator.back, Iterator.get, Iterator.page, h]

theorem before_ne_nil {data' : List (Page α)} (helems : elemsOf data' = before) (hpages : NoEmptyPage data')
    (hnil : data' ≠ []) : before ≠ [] := by
  rw [← helems]
  exact fun hn => hnil ((elemsOf_eq_nil hpages).mp hn)

theorem Last.eq_single (hl : Last data last) (hpages : NoEmptyPage data)
    (h : Points data iter before val []) (hv : ∀ a ∈ last, expected a = true) : expected val = true := by
  obtain ⟨front, hfront⟩ := hl.suffix
  rw [h.elems_eq] at hfront
  obtain ⟨mid, a, rfl⟩ := (List.eq_nil_or_concat' last).resolve_left (hl.ne_nil hpages)
  rw [← List.append_assoc] at hfront
  obtain ⟨-, hval⟩ := List.append_inj' hfront rfl
  exact hv val (by simp [List.singleton_inj.mp hval])

/-- The last element is expected: the pass panics if that was a page of its own, and not the only one. -/
theorem removeLoop_last_none_iff {fuel : Nat} (h : Points data iter before val []) (hl : Last data last)
    (hpages : NoEmptyPage data) (hv : expected val = true) (hfuel : 0 < fuel) :
    (removeLoop expected count (fuel + 1) ⟨data, size⟩ iter removed).2 = none ↔
      Sinks expected count before [val] last removed := by
  obtain ⟨data', iter', hr, helems, hpages', hends⟩ := h.remove_last hl size hpages
  rw [removeLoop, h.atEnd, h.get]
  dsimp only
  rw [if_pos hv, hr]
  dsimp only
  have hone : [val].countP expected = 1 := by
    rw [List.countP_cons_of_pos hv, List.countP_nil]
  by_cases hc : (removed + 1 : Int) = count
  · rw [if_pos hc]
    exact iff_of_false (by simp) fun hs => hs.2.2 (by omega)
  · rw [if_neg hc]
    cases hends with
    | kept left hlast hne _ hend _ =>
        rw [removeLoop_end hfuel (hend _)]
        refine iff_of_false (by simp) (not_sinks_single (.inr (.inl ?_)) (by simp [hlast]))
        have hpos := List.length_pos_iff.mpr hne
        rw [hlast, List.length_append, List.length_singleton]
        omega
    | gone hlast hiter =>
        subst hlast hiter
        by_cases hnil : data' = []
        · subst hnil
          rw [removeLoop_end hfuel rfl]
          exact iff_of_false (by simp) (not_sinks_single (.inr (.inr helems.symm)) (by simp))
        · have hbefore : before ≠ [] := before_ne_nil helems hpages' hnil
          exact iff_of_true (removeLoop_nowhere hnil fuel)
            ⟨⟨[], rfl, .inl hbefore⟩, by simpa using hv, by omega⟩

theorem removeLoop_none_iff {fuel : Nat} (h : Points data iter before val after) (hl : Last data last)
    (hpages : NoEmptyPage data) (hfuel : after.length + 1 < fuel) :
    (removeLoop expected count fuel ⟨data, size⟩ iter removed).2 = none ↔
      Sinks expected count before (val :: after) last removed := by
  induction fuel generalizing data iter before val after last size removed with
  | zero => omega
  | succ fuel ih =>
      by_cases hv : expected val = true
      · cases after with
        | nil => exact removeLoop_last_none_iff h hl hpages hv (by simp at hfuel; omega)
        | cons a after =>
            obtain ⟨data', iter', last', hr, hp, hpages', hl', hs⟩ := h.remove_inner hl size hpages
            rw [removeLoop, h.atEnd, h.get]
            dsimp only
            rw [if_pos hv, hr]
            dsimp only
            by_cases hc : (removed + 1 : Int) = count
            · rw [if_pos hc]
              refine iff_of_false (by simp) fun hs => hs.2.2 ?_
              rw [List.countP_cons_of_pos hv]
              omega
            · rw [if_neg hc, ih hp hl' hpages' (by simp at hfuel; omega)]
              exact (sinks_remove hv hs hc).symm
      · have hfalse : expected val = false := by simpa using hv
        rw [removeLoop, h.atEnd, h.get]
        dsimp only
        rw [if_neg hv]
        cases after with
        | nil =>
            obtain ⟨iter', hn, hend⟩ := h.next_end size hpages
            rw [hn]
            dsimp only
            rw [removeLoop_end (by simp at hfuel; omega) hend]
            exact iff_of_false (by simp) fun hs => hv (hl.eq_single hpages h hs.2.1)
        | cons a after =>
            obtain ⟨iter', hn, hp⟩ := h.next size hpages
            rw [hn]
            dsimp only
            rw [ih hp hl hpages (by simp at hfuel; omega)]
            exact (sinks_next hfalse).symm

def taken (expected : α → Bool) (count : Int) (removed : Nat) (rest : List α) : Nat :=
  if removed < count ∧ count ≤ removed + rest.countP expected then (count - removed).toNat
  else rest.countP expected

@[simp] theorem taken_nil : taken expected count removed [] = 0 := by
  rw [taken, List.countP_nil, if_neg (by omega)]

theorem taken_next (hv : expected val = false) :
    taken expected count removed (val :: after) = taken expected count removed after := by
  have hcount : (val :: after).countP expected = after.countP expected := by simp [hv]
  rw [taken, taken, hcount]

theorem taken_stop (hv : expected val = true) (hc : (removed + 1 : Int) = count) :
    taken expected count removed (val :: after) = 1 := by
  rw [taken, List.countP_cons_of_pos hv, if_pos (by omega)]
  omega

theorem taken_remove (hv : expected val = true) (hc : (removed + 1 : Int) ≠ count) :
    taken expected count removed (val :: after) = 1 + taken expected count (removed + 1) after := by
  rw [taken, taken, List.countP_cons_of_pos hv]
  by_cases hstop : removed < count ∧ count ≤ removed + ((after.countP expected + 1 : Nat) : Int)
  · rw [if_pos hstop, if_pos (by omega)]
    omega
  · rw [if_neg hstop, if_neg (by omega)]
    omega

theorem removeLoop_unmoved {fuel : Nat} {ql : QuickList α}
    (h : iter.atEnd ql = some true ∨ iter.node = none) :
    (removeLoop expected count fuel ql iter removed).1 = ql := by
  cases fuel with
  | zero => rfl
  | succ fuel =>
      rw [removeLoop]
      rcases h with h | h
      · rw [h]
      · have hget : iter.get ql = none := by simp [Iterator.get, Iterator.page, h]
        rw [hget]
        cases iter.atEnd ql with
        | none => rfl
        | some b => cases b <;> rfl

/-- What a pass from the front on takes from the size, whether it panics or not. -/
theorem removeLoop_size {fuel : Nat} (h : Points data iter before val after) (hpages : NoEmptyPage data)
    (hfuel : after.length + 1 < fuel) :
    (removeLoop expected count fuel ⟨data, size⟩ iter removed).1.size =
      size - taken expected count removed (val :: after) := by
  induction fuel generalizing data iter before val after size removed with
  | zero => omega
  | succ fuel ih =>
      obtain ⟨last, hl⟩ := h.exists_last
      rw [removeLoop, h.atEnd, h.get]
      dsimp only
      by_cases hv : expected val = true
      · rw [if_pos hv]
        cases after with
        | nil =>
            obtain ⟨data', iter', hr, -, -, hends⟩ := h.remove_last hl size hpages
            rw [hr]
            dsimp only
            by_cases hc : (removed + 1 : Int) = count
            · rw [if_pos hc, taken_stop hv hc]
              rfl
            · have hunmoved : iter'.atEnd ⟨data', size - 1⟩ = some true ∨ iter'.node = none := by
                cases hends with
                | kept left hlast hne hleft hend hprev => exact .inl (hend _)
                | gone hlast hiter => exact .inr (by rw [hiter])
              rw [if_neg hc, removeLoop_unmoved hunmoved, taken_remove hv hc, taken_nil]
              rfl
        | cons a after =>
            obtain ⟨data', iter', last', hr, hp, hpages', -, -⟩ := h.remove_inner hl size hpages
            rw [hr]
            dsimp only
            by_cases hc : (removed + 1 : Int) = count
            · rw [if_pos hc, taken_stop hv hc]
              rfl
            · rw [if_neg hc, ih hp hpages' (by simp at hfuel; omega), taken_remove hv hc]
              push_cast
              omega
      · have hfalse : expected val = false := by simpa using hv
        rw [if_neg hv, taken_next hfalse]
        cases after with
        | nil =>
            obtain ⟨iter', hn, hend⟩ := h.next_end size hpages
            rw [hn]
            dsimp only
            rw [removeLoop_unmoved (.inl hend), taken_nil]
            simp
        | cons a after =>
            obtain ⟨iter', hn, hp⟩ := h.next size hpages
            rw [hn]
            exact ih hp hpages (by simp at hfuel; omega)

theorem Points.atBegin (h : Points data iter before val after) (size : Int) :
    iter.atBegin ⟨data, size⟩ = false := by
  obtain ⟨pre, cap, post, left, right, rfl, rfl, rfl, rfl⟩ := h
  rw [Iterator.atBegin, if_neg (by simp)]
  split
  · rfl
  · have hne : (left.length : Int) ≠ -1 := by omega
    exact decide_eq_false hne

theorem Points.prev_nil (h : Points data iter [] val after) (size : Int) (hpages : NoEmptyPage data) :
    ∃ iter', iter.prev ⟨data, size⟩ = some (iter', false) ∧ iter'.atBegin ⟨data, size⟩ = true := by
  obtain ⟨pre, cap, post, left, right, rfl, rfl, hbefore, rfl⟩ := h
  obtain ⟨hpre, rfl⟩ := List.append_eq_nil_iff.mp hbefore.symm
  cases pre with
  | cons page pre =>
      have hne := hpages page (by simp)
      simp [hne] at hpre
  | nil =>
      refine ⟨⟨some 0, -1⟩, ?_, ?_⟩
      · simp [Iterator.prev, Iterator.front]
      · simp [Iterator.atBegin, Iterator.front]

theorem Points.prev {b : α} (h : Points data iter (before ++ [b]) val after) (size : Int)
    (hpages : NoEmptyPage data) :
    ∃ iter', iter.prev ⟨data, size⟩ = some (iter', true) ∧ Points data iter' before b (val :: after) := by
  obtain ⟨pre, cap, post, left, right, rfl, rfl, hbefore, rfl⟩ := h
  rcases List.eq_nil_or_concat' left with rfl | ⟨left, c, rfl⟩
  · rw [List.append_nil] at hbefore
    rcases List.eq_nil_or_concat' pre with rfl | ⟨pre, page, rfl⟩
    · simp at hbefore
    · obtain ⟨elems, pageCap⟩ := page
      have hne : elems ≠ [] := hpages ⟨elems, pageCap⟩ (by simp)
      obtain ⟨left, c, rfl⟩ := (List.eq_nil_or_concat' elems).resolve_left hne
      rw [elemsOf_append, elemsOf_cons, elemsOf_nil, List.append_nil, ← List.append_assoc] at hbefore
      obtain ⟨rfl, hc⟩ := List.append_inj' hbefore rfl
      obtain rfl := List.singleton_inj.mp hc
      have hfront : some (pre ++ [(⟨left ++ [b], pageCap⟩ : Page α)]).length ≠
          Iterator.front ⟨(pre ++ [(⟨left ++ [b], pageCap⟩ : Page α)]) ++ ⟨[] ++ val :: right, cap⟩ :: post, size⟩ := by
        simp [Iterator.front]
      have hpage : Iterator.page ⟨(some (pre ++ [(⟨left ++ [b], pageCap⟩ : Page α)]).length).map (· - 1), 0⟩
          ⟨(pre ++ [(⟨left ++ [b], pageCap⟩ : Page α)]) ++ ⟨[] ++ val :: right, cap⟩ :: post, size⟩ =
          some ⟨left ++ [b], pageCap⟩ := by simp [Iterator.page]
      refine ⟨⟨some pre.length, left.length⟩, ?_, pre, pageCap, ⟨val :: right, cap⟩ :: post, left, [],
        by simp, rfl, rfl, by simp⟩
      rw [Iterator.prev, if_neg (by simp), if_neg hfront]
      dsimp only
      rw [hpage]
      simp
  · rw [← List.append_assoc] at hbefore
    obtain ⟨rfl, hc⟩ := List.append_inj' hbefore rfl
    obtain rfl := List.singleton_inj.mp hc
    have hpos : (0 : Int) < ((left ++ [b]).length : Nat) := by
      rw [List.length_append, List.length_singleton]
      omega
    have hsub : (((left ++ [b]).length : Nat) : Int) - 1 = left.length := by
      rw [List.length_append, List.length_singleton]
      omega
    refine ⟨⟨some pre.length, left.length⟩, ?_, pre, cap, post, left, val :: right, by simp, rfl, rfl,
      by simp⟩
    rw [Iterator.prev, if_pos hpos, hsub]

theorem reverseRemoveLoop_begin {fuel : Nat} {ql : QuickList α} (hfuel : 0 < fuel)
    (h : iter.atBegin ql = true) :
    reverseRemoveLoop expected count fuel ql iter removed = (ql, some removed) := by
  cases fuel with
  | zero => omega
  | succ fuel => rw [reverseRemoveLoop, if_pos h]

/-- A pass from the back on that is no longer at the last element does not panic. -/
theorem reverseRemoveLoop_inner {fuel : Nat} {a : α} (h : Points data iter before val (a :: after))
    (hpages : NoEmptyPage data) (hfuel : before.length + 1 < fuel) :
    (reverseRemoveLoop expected count fuel ⟨data, size⟩ iter removed).2 ≠ none ∧
      (reverseRemoveLoop expected count fuel ⟨data, size⟩ iter removed).1.size =
        size - taken expected count removed (val :: before.reverse) := by
  induction fuel generalizing data iter before val a after size removed with
  | zero => omega
  | succ fuel ih =>
      obtain ⟨last, hl⟩ := h.exists_last
      rw [reverseRemoveLoop, h.atBegin, if_neg Bool.false_ne_true, h.get]
      dsimp only
      by_cases hv : expected val = true
      · obtain ⟨data', iter', last', hr, hp, hpages', -, -⟩ := h.remove_inner hl size hpages
        rw [if_pos hv, hr]
        dsimp only
        by_cases hc : (removed + 1 : Int) = count
        · rw [if_pos hc, taken_stop hv hc]
          exact ⟨by simp, rfl⟩
        · rw [if_neg hc, taken_remove hv hc]
          rcases List.eq_nil_or_concat' before with rfl | ⟨before, b, rfl⟩
          · obtain ⟨iter'', hprev, hbegin⟩ := hp.prev_nil (size - 1) hpages'
            rw [hprev]
            dsimp only
            rw [reverseRemoveLoop_begin (by simp at hfuel; omega) hbegin, List.reverse_nil, taken_nil]
            exact ⟨by simp, rfl⟩
          · obtain ⟨iter'', hprev, hp'⟩ := hp.prev (size - 1) hpages'
            rw [hprev, List.reverse_append, List.reverse_singleton, List.singleton_append]
            dsimp only
            obtain ⟨hsome, hsize⟩ := ih hp' hpages' (by simp at hfuel; omega)
            refine ⟨hsome, ?_⟩
            rw [hsize]
            push_cast
            omega
      · have hfalse : expected val = false := by simpa using hv
        rw [if_neg hv, taken_next hfalse]
        rcases List.eq_nil_or_concat' before with rfl | ⟨before, b, rfl⟩
        · obtain ⟨iter', hprev, hbegin⟩ := h.prev_nil size hpages
          rw [hprev]
          dsimp only
          rw [reverseRemoveLoop_begin (by simp at hfuel; omega) hbegin, List.reverse_nil, taken_nil]
          exact ⟨by simp, by simp⟩
        · obtain ⟨iter', hprev, hp⟩ := h.prev size hpages
          rw [hprev, List.reverse_append, List.reverse_singleton, List.singleton_append]
          exact ih hp hpages (by simp at hfuel; omega)

/-- A pass from the back on takes the last page away before it has removed as many elements as
it shall, and leaves others. -/
def Breaks (expected : α → Bool) (count : Int) (length : Nat) (last : List α) (removed : Nat) : Prop :=
  (∀ a ∈ last, expected a = true) ∧ last.length < length ∧
    ¬ (removed < count ∧ count ≤ removed + last.length)

theorem breaks_remove {length : Nat} {left : List α} (hv : expected val = true)
    (hc : (removed + 1 : Int) ≠ count) :
    Breaks expected count (length + 1) (left ++ [val]) removed ↔
      Breaks expected count length left (removed + 1) := by
  have hall : (∀ a ∈ left ++ [val], expected a = true) ↔ ∀ a ∈ left, expected a = true := by
    simp [or_imp, forall_and, hv]
  rw [Breaks, Breaks, hall, List.length_append, List.length_singleton]
  refine and_congr_right fun _ => and_congr (by omega) (not_congr ?_)
  constructor
  · rintro ⟨hlow, hhigh⟩
    exact ⟨by omega, by omega⟩
  · rintro ⟨hlow, hhigh⟩
    exact ⟨by omega, by omega⟩

theorem prev_empty (size : Int) :
    (⟨none, 0⟩ : Iterator).prev (⟨[], size⟩ : QuickList α) = some (⟨none, -1⟩, false) := by
  simp [Iterator.prev, Iterator.front]

theorem prev_nowhere {data' : List (Page α)} (hnil : data' ≠ []) (size : Int) :
    (⟨none, 0⟩ : Iterator).prev (⟨data', size⟩ : QuickList α) = none := by
  simp [Iterator.prev, Iterator.front, Iterator.page, hnil]

theorem reverseRemoveLoop_last {fuel : Nat} (h : Points data iter before val []) (hl : Last data last)
    (hpages : NoEmptyPage data) (hfuel : before.length + 1 < fuel) :
    (Breaks expected count (before.length + 1) last removed →
      (reverseRemoveLoop expected count fuel ⟨data, size⟩ iter removed).2 = none ∧
      (reverseRemoveLoop expected count fuel ⟨data, size⟩ iter removed).1.size = size - last.length) ∧
    (¬ Breaks expected count (before.length + 1) last removed →
      (reverseRemoveLoop expected count fuel ⟨data, size⟩ iter removed).2 ≠ none ∧
      (reverseRemoveLoop expected count fuel ⟨data, size⟩ iter removed).1.size =
        size - taken expected count removed (val :: before.reverse)) := by
  induction fuel generalizing data iter before val last size removed with
  | zero => omega
  | succ fuel ih =>
      rw [reverseRemoveLoop, h.atBegin, if_neg Bool.false_ne_true, h.get]
      dsimp only
      by_cases hv : expected val = true
      · obtain ⟨data', iter', hr, helems, hpages', hends⟩ := h.remove_last hl size hpages
        rw [if_pos hv, hr]
        dsimp only
        have hpos := List.length_pos_iff.mpr (hl.ne_nil hpages)
        by_cases hc : (removed + 1 : Int) = count
        · rw [if_pos hc, taken_stop hv hc]
          exact ⟨fun hb => absurd ⟨by omega, by omega⟩ hb.2.2, fun _ => ⟨by simp, rfl⟩⟩
        · rw [if_neg hc, taken_remove hv hc]
          cases hends with
          | kept left hlast hne hleft hend hprev =>
              obtain ⟨iter'', before', b, hprev, hp⟩ := hprev (size - 1)
              rw [hp.elems_eq] at helems
              subst helems hlast
              obtain ⟨hbroken, hwhole⟩ := ih hp hleft hpages' (by simp at hfuel; omega)
              rw [List.length_append, List.length_singleton, breaks_remove hv hc, hprev,
                List.reverse_append, List.reverse_singleton, List.singleton_append]
              dsimp only
              refine ⟨fun hb => ⟨(hbroken hb).1, ?_⟩, fun hb => ⟨(hwhole hb).1, ?_⟩⟩
              · rw [(hbroken hb).2, List.length_append, List.length_singleton]
                push_cast
                omega
              · rw [(hwhole hb).2]
                push_cast
                omega
          | gone hlast hiter =>
              subst hlast hiter
              by_cases hnil : data' = []
              · subst hnil
                obtain rfl : before = [] := helems.symm
                have hbegin : (⟨none, -1⟩ : Iterator).atBegin (⟨[], size - 1⟩ : QuickList α) = true :=
                  if_pos rfl
                rw [prev_empty]
                dsimp only
                rw [reverseRemoveLoop_begin (by simp at hfuel; omega) hbegin, List.reverse_nil, taken_nil]
                exact ⟨fun hb => absurd hb.2.1 (by simp), fun _ => ⟨by simp, rfl⟩⟩
              · have hlength := List.length_pos_iff.mpr (before_ne_nil helems hpages' hnil)
                rw [prev_nowhere hnil]
                refine ⟨fun _ => ⟨rfl, rfl⟩, fun hb => absurd ⟨by simpa using hv, ?_, ?_⟩ hb⟩
                · rw [List.length_singleton]
                  omega
                · rw [List.length_singleton]
                  omega
      · have hfalse : expected val = false := by simpa using hv
        have hbreaks : ¬ Breaks expected count (before.length + 1) last removed := fun hb =>
          hv (hl.eq_single hpages h hb.1)
        refine ⟨fun hb => absurd hb hbreaks, fun _ => ?_⟩
        rw [if_neg hv, taken_next hfalse]
        rcases List.eq_nil_or_concat' before with rfl | ⟨before, b, rfl⟩
        · obtain ⟨iter', hprev, hbegin⟩ := h.prev_nil size hpages
          rw [hprev]
          dsimp only
          rw [reverseRemoveLoop_begin (by simp at hfuel; omega) hbegin, List.reverse_nil, taken_nil]
          exact ⟨by simp, by simp⟩
        · obtain ⟨iter', hprev, hp⟩ := h.prev size hpages
          rw [hprev, List.reverse_append, List.reverse_singleton, List.singleton_append]
          exact reverseRemoveLoop_inner hp hpages (by simp at hfuel; omega)

theorem removeAllLoop_eq (expected : α → Bool) (fuel : Nat) (ql : QuickList α) (iter : Iterator)
    (removed : Nat) : removeAllLoop expected fuel ql iter removed =
      removeLoop expected 0 fuel ql iter removed := by
  induction fuel generalizing ql iter removed with
  | zero => rfl
  | succ fuel ih =>
      have hne : (removed + 1 : Int) ≠ 0 := by omega
      rw [removeAllLoop, removeLoop]
      simp only [ih, if_neg hne]

end

section

variable {ql : QuickList α} {expected : α → Bool} {count : Int}

/-- How many elements a pass from the front on leaves out: a list of size one is entered at its
last element, whatever there is in front of it. -/
def skipped (ql : QuickList α) : Nat := if ql.size = 1 then (elems ql).length - 1 else 0

/-- A removal from the front on takes more than the size, or all of it in a pass that panics. -/
def Drains (ql : QuickList α) (expected : α → Bool) (count : Int) : Prop :=
  ql.size < taken expected count 0 ((elems ql).drop (skipped ql)) ∨
    ql.size = taken expected count 0 ((elems ql).drop (skipped ql)) ∧
      ∃ last, Last ql.data last ∧
        Sinks expected count ((elems ql).take (skipped ql)) ((elems ql).drop (skipped ql)) last 0

def DrainsBack (ql : QuickList α) (expected : α → Bool) (count : Int) : Prop :=
  ∃ last, Last ql.data last ∧
    (Breaks expected count (elems ql).length last 0 ∧ ql.size ≤ last.length ∨
      ¬ Breaks expected count (elems ql).length last 0 ∧
        ql.size < taken expected count 0 (elems ql).reverse)

def Sound (r : QuickList α × Option Nat) : Prop := 0 < r.1.size ∨ r.1.size = 0 ∧ r.2 ≠ none

theorem length_elems_lt_passes (ql : QuickList α) : (elems ql).length < passes ql := by
  rw [passes, total_eq]
  omega

def Strands (ql : QuickList α) (expected : α → Bool) (count : Int) : Prop :=
  ∃ last, Last ql.data last ∧
    Sinks expected count ((elems ql).take (skipped ql)) ((elems ql).drop (skipped ql)) last 0

def StrandsBack (ql : QuickList α) (expected : α → Bool) (count : Int) : Prop :=
  ∃ last, Last ql.data last ∧ Breaks expected count (elems ql).length last 0

theorem removeByVal_spec (h : WellFormed ql) (hsize : 0 < ql.size) (expected : α → Bool) (count : Int) :
    (removeByVal ql expected count).1.size =
      ql.size - taken expected count 0 ((elems ql).drop (skipped ql)) ∧
    ((removeByVal ql expected count).2 = none ↔ Strands ql expected count) := by
  have htotal : ql.size ≤ total ql := by
    rw [total_eq]
    exact h.size_le
  obtain ⟨iter, before, val, after, hf, hp, hlen⟩ := find_points htotal (Int.le_refl 0) hsize
  have helems : elems ql = before ++ val :: after := hp.elems_eq
  have hskipped : skipped ql = before.length := by
    rw [total_eq, Int.tdiv_eq_ediv_of_nonneg (by omega)] at hlen
    rw [skipped]
    split
    · rw [if_neg (by omega)] at hlen
      omega
    · rw [if_pos (by omega)] at hlen
      omega
  have hfuel : after.length + 1 < passes ql := by
    have hpasses := length_elems_lt_passes ql
    rw [helems, List.length_append, List.length_cons] at hpasses
    omega
  have hnone {last : List α} (hl : Last ql.data last) :
      (removeLoop expected count (passes ql) ql iter 0).2 = none ↔
        Sinks expected count before (val :: after) last 0 := removeLoop_none_iff hp hl h.pages hfuel
  rw [removeByVal, if_neg (by omega), hf, Strands, hskipped, helems, List.drop_left, List.take_left]
  refine ⟨removeLoop_size hp h.pages hfuel, fun hn => ?_, ?_⟩
  · obtain ⟨last, hl⟩ := hp.exists_last
    exact ⟨last, hl, (hnone hl).mp hn⟩
  · rintro ⟨last, hl, hsinks⟩
    exact (hnone hl).mpr hsinks

theorem removeAllByVal_eq (hsize : 0 < ql.size) (expected : α → Bool) :
    removeAllByVal ql expected = removeByVal ql expected 0 := by
  rw [removeAllByVal, removeByVal, if_neg (by omega)]
  split
  · rfl
  · exact removeAllLoop_eq _ _ _ _ _

theorem removeByVal_sound (h : WellFormed ql) (hsize : 0 < ql.size)
    (hdrains : ¬ Drains ql expected count) : Sound (removeByVal ql expected count) := by
  obtain ⟨hloop, hnone⟩ := removeByVal_spec h hsize expected count
  rw [Drains, not_or, not_and] at hdrains
  rw [Sound, hloop]
  by_cases heq : ql.size = taken expected count 0 ((elems ql).drop (skipped ql))
  · exact .inr ⟨by omega, fun hn => hdrains.2 heq (hnone.mp hn)⟩
  · have hlt := hdrains.1
    exact .inl (by omega)

theorem removeAllByVal_sound (h : WellFormed ql) (hsize : 0 < ql.size)
    (hdrains : ¬ Drains ql expected 0) : Sound (removeAllByVal ql expected) :=
  removeAllByVal_eq hsize expected ▸ removeByVal_sound h hsize hdrains

theorem reverseRemoveByVal_spec (h : WellFormed ql) (hsize : 0 < ql.size) (expected : α → Bool)
    (count : Int) : ∃ last, Last ql.data last ∧
      (Breaks expected count (elems ql).length last 0 →
        (reverseRemoveByVal ql expected count).2 = none ∧
        (reverseRemoveByVal ql expected count).1.size = ql.size - last.length) ∧
      (¬ Breaks expected count (elems ql).length last 0 →
        (reverseRemoveByVal ql expected count).2 ≠ none ∧
        (reverseRemoveByVal ql expected count).1.size =
          ql.size - taken expected count 0 (elems ql).reverse) := by
  have htotal : ql.size ≤ total ql := by
    rw [total_eq]
    exact h.size_le
  obtain ⟨iter, before, val, after, hf, hp, hlen⟩ :=
    find_points htotal (show (0 : Int) ≤ ql.size - 1 by omega) (by omega)
  have helems : elems ql = before ++ val :: after := hp.elems_eq
  have hlength : (elems ql).length = before.length + (after.length + 1) := by
    rw [helems, List.length_append, List.length_cons]
  obtain rfl : after = [] := by
    rw [total_eq, Int.tdiv_eq_ediv_of_nonneg (by omega)] at hlen
    split at hlen
    · omega
    · exact List.eq_nil_of_length_eq_zero (by omega)
  have hfuel : before.length + 1 < passes ql := by
    have hpasses := length_elems_lt_passes ql
    rw [hlength, List.length_nil] at hpasses
    omega
  rw [List.length_nil] at hlength
  have hreverse : (elems ql).reverse = val :: before.reverse := by
    rw [helems, List.reverse_append, List.reverse_singleton, List.singleton_append]
  obtain ⟨last, hl⟩ := hp.exists_last
  rw [reverseRemoveByVal, if_neg (by omega), hf, hlength, hreverse]
  exact ⟨last, hl, reverseRemoveLoop_last hp hl h.pages hfuel⟩

theorem reverseRemoveByVal_sound (h : WellFormed ql) (hsize : 0 < ql.size)
    (hdrains : ¬ DrainsBack ql expected count) : Sound (reverseRemoveByVal ql expected count) := by
  obtain ⟨last, hl, hbroken, hwhole⟩ := reverseRemoveByVal_spec h hsize expected count
  rw [DrainsBack] at hdrains
  rw [Sound]
  by_cases hb : Breaks expected count (elems ql).length last 0
  · have hlt : ¬ ql.size ≤ last.length := fun hle => hdrains ⟨last, hl, .inl ⟨hb, hle⟩⟩
    rw [(hbroken hb).2]
    exact .inl (by omega)
  · have hlt : ¬ ql.size < taken expected count 0 (elems ql).reverse :=
      fun hlt => hdrains ⟨last, hl, .inr ⟨hb, hlt⟩⟩
    obtain ⟨hsome, hloop⟩ := hwhole hb
    rw [hloop]
    by_cases heq : ql.size = taken expected count 0 (elems ql).reverse
    · exact .inr ⟨by omega, hsome⟩
    · exact .inl (by omega)

theorem Last.unique {data : List (Page α)} {last last' : List α} (h : Last data last)
    (h' : Last data last') : last = last' := by
  obtain ⟨front, page, rfl, rfl⟩ := h
  exact h'.eq.symm

theorem removeByVal_none_iff (h : WellFormed ql) (hsize : 0 < ql.size) :
    (removeByVal ql expected count).2 = none ↔ Strands ql expected count :=
  (removeByVal_spec h hsize expected count).2

theorem reverseRemoveByVal_none_iff (h : WellFormed ql) (hsize : 0 < ql.size) :
    (reverseRemoveByVal ql expected count).2 = none ↔ StrandsBack ql expected count := by
  obtain ⟨last, hl, hbroken, hwhole⟩ := reverseRemoveByVal_spec h hsize expected count
  constructor
  · intro hn
    exact ⟨last, hl, by_contra fun hb => (hwhole hb).1 hn⟩
  · rintro ⟨last', hl', hb⟩
    exact (hbroken (hl.unique hl' ▸ hb)).1

/-- What a pass that panics has taken away is missing. -/
theorem Strands.size_lt (h : WellFormed ql) (hsize : 0 < ql.size) (hs : Strands ql expected count) :
    (removeByVal ql expected count).1.size < ql.size := by
  obtain ⟨last, hl, ⟨front, hrest, -⟩, hall, hlimit⟩ := hs
  have hpos := List.length_pos_iff.mpr (hl.ne_nil h.pages)
  have hcount : last.countP expected = last.length := List.countP_eq_length.mpr hall
  rw [(removeByVal_spec h hsize expected count).1, taken, if_neg hlimit, hrest, List.countP_append]
  omega

theorem StrandsBack.size_lt (h : WellFormed ql) (hsize : 0 < ql.size)
    (hs : StrandsBack ql expected count) : (reverseRemoveByVal ql expected count).1.size < ql.size := by
  obtain ⟨last, hl, hbroken, -⟩ := reverseRemoveByVal_spec h hsize expected count
  obtain ⟨last', hl', hb⟩ := hs
  have hpos := List.length_pos_iff.mpr (hl.ne_nil h.pages)
  rw [(hbroken (hl.unique hl' ▸ hb)).2]
  omega

end

end Traitor.QuickList
