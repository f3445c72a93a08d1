import Traitor.LazyExpiry
import Traitor.Wildcards

namespace Traitor.Wildcard

open Lib.Regexp

variable {category : Char → Char → Bool} {c : Char} {g : List Sign} {s t w : List Char} {prev : Option Char}
  {ns : List Node}

/-- A character for itself is not one of those that say something else, and no bracket. -/
def Sign.Proper : Sign → Prop
  | .char c => c ∉ ['\\', '*', '?', '[', ']']
  | _ => True

theorem signs_proper (hg : signs s = some g) (hopen : '[' ∉ s) (hclose : ']' ∉ s) : ∀ a ∈ g, a.Proper := by
  induction hlen : s.length using Nat.strongRecOn generalizing s g with
  | _ len ih =>
      rcases s with _ | ⟨c, s⟩
      · obtain rfl : [] = g := Option.some.inj hg
        simp
      · have hnext {t : List Char} {g' : List Sign} (hlength : t.length ≤ s.length) (ht : signs t = some g')
            (hsub : ∀ x ∈ t, x ∈ s) : ∀ a ∈ g', a.Proper :=
          ih t.length (by rw [← hlen, List.length_cons]; omega) ht
            (fun h => hopen (List.mem_cons_of_mem _ (hsub _ h))) (fun h => hclose (List.mem_cons_of_mem _ (hsub _ h))) rfl
        by_cases hc : c = '\\'
        · subst hc
          rcases s with _ | ⟨e, s⟩
          · cases hg
          · rw [signs_escaped] at hg
            obtain ⟨g, hrest, rfl⟩ := Option.map_eq_some_iff.mp hg
            intro a ha
            rcases List.mem_cons.mp ha with rfl | ha
            · trivial
            · exact hnext (by simp) hrest (fun x hx => List.mem_cons_of_mem _ hx) a ha
        · rw [signs_cons hc] at hg
          obtain ⟨g, hrest, rfl⟩ := Option.map_eq_some_iff.mp hg
          intro a ha
          rcases List.mem_cons.mp ha with rfl | ha
          · rw [sign]
            split_ifs with hstar hany
            · trivial
            · trivial
            · have hcopen : c ≠ '[' := fun h => hopen (by simp [h])
              have hcclose : c ≠ ']' := fun h => hclose (by simp [h])
              simp [Sign.Proper, hc, hstar, hany, hcopen, hcclose]
          · exact hnext (Nat.le_refl _) hrest (fun x hx => hx) a ha

/-- A sign of which the regular expression says the same: no parenthesis is opened, and what is escaped is
ASCII, but no letter or digit. -/
def Sign.Plain : Sign → Prop
  | .char c => c ≠ '('
  | .escaped c => c.toNat < 128 ∧ c.isAlphanum = false
  | _ => True

def Sign.node : Sign → Node
  | .star => .starNotNL
  | .any => .anyNotNL
  | .char c => .literal c
  | .escaped c => .literal c

theorem head_ne_star (hproper : ∀ a ∈ g, a.Proper) : (regex g ++ ['$']).head? ≠ some '*' := by
  rcases g with _ | ⟨a, g⟩
  · decide
  · have ha := hproper a (by simp)
    rw [regex, List.flatMap_cons]
    cases a with
    | star => simp [Sign.regex]
    | any => simp [Sign.regex]
    | escaped c => simp [Sign.regex]
    | char c =>
        simp only [Sign.Proper, List.mem_cons, List.not_mem_nil, or_false, not_or] at ha
        rw [Sign.regex]
        split_ifs
        · simp
        · simp [ha]

theorem parse_sign {a : Sign} (hproper : ∀ b ∈ a :: g, b.Proper) (hplain : a.Plain) :
    parse category false (a.regex ++ (regex g ++ ['$'])) =
      (parse category false (regex g ++ ['$'])).map (a.node :: ·) := by
  have hescape {c : Char} (hc : c.toNat < 128) (halpha : c.isAlphanum = false) (t : List Char) :
      parse category false ('\\' :: c :: t) = (parse category false t).map (.literal c :: ·) := by
    have hq : c ≠ 'Q' := by
      rintro rfl
      cases halpha
    rw [parse_escape hq, escape_of_not_alphanum halpha, if_pos hc]
    rfl
  cases a with
  | star => exact parse_starNotNL
  | any => exact parse_anyNotNL (head_ne_star fun b hb => hproper b (by simp [hb]))
  | escaped c => exact hescape hplain.1 hplain.2 _
  | char c =>
      have hc := hproper (.char c) (by simp)
      rw [Sign.regex]
      split_ifs with hreplaced
      · apply hescape
        · simp only [List.mem_cons, List.not_mem_nil, or_false] at hreplaced
          rcases hreplaced with rfl | rfl | rfl | rfl | rfl | rfl | rfl | rfl <;> decide
        · simp only [List.mem_cons, List.not_mem_nil, or_false] at hreplaced
          rcases hreplaced with rfl | rfl | rfl | rfl | rfl | rfl | rfl | rfl <;> decide
      · apply parse_literal
        simp only [Sign.Proper, List.mem_cons, List.not_mem_nil, or_false, not_or] at hc hreplaced ⊢
        exact ⟨hc.1, hreplaced.2.2.2.1, hreplaced.2.2.2.2.2.2.2, hreplaced.2.2.1, hreplaced.1, hc.2.1, hc.2.2.1, hplain,
          hreplaced.2.1, hreplaced.2.2.2.2.2.2.1, hc.2.2.2.1, hc.2.2.2.2, hreplaced.2.2.2.2.1, hreplaced.2.2.2.2.2.1⟩

/-- A character that is not ASCII has no escape. -/
theorem parse_unknown (halpha : c.isAlphanum = false) (hc : ¬ c.toNat < 128) :
    parse category false ('\\' :: c :: s) = none := by
  have hq : c ≠ 'Q' := by
    rintro rfl
    cases halpha
  rw [parse_escape hq, escape_of_not_alphanum halpha, if_neg hc]

theorem parse_plain (hproper : ∀ a ∈ g, a.Proper) (hplain : ∀ a ∈ g, a.Plain) :
    parse category false (regex g ++ ['$']) = some (g.map Sign.node ++ [.endText]) := by
  induction g with
  | nil => exact parse_end
  | cons a g ih =>
      rw [regex, List.flatMap_cons, List.append_assoc]
      apply (parse_sign hproper (hplain a (by simp))).trans
      rw [ih (fun b hb => hproper b (by simp [hb])) (fun b hb => hplain b (by simp [hb]))]
      rfl

/-- A regular expression takes no newline for a wildcard. -/
theorem matches_plain (g : List Sign) (prev : Option Char) (s : List Char) :
    Matches (g.map Sign.node ++ [.endText]) prev s ↔ Glob (· ≠ '\n') g s := by
  induction g generalizing prev s with
  | nil =>
      constructor
      · intro h
        exact h.1
      · intro h
        exact ⟨h, trivial⟩
  | cons a g ih =>
      cases a with
      | star =>
          apply exists_congr
          intro u
          apply exists_congr
          intro t
          refine and_congr_right fun _ => and_congr ?_ (ih _ t)
          exact ⟨fun h c hc hn => h (hn ▸ hc), fun h hn => h _ hn rfl⟩
      | any => exact exists_congr fun c => exists_congr fun t => and_congr_right fun _ => and_congr_right fun _ => ih _ t
      | char c => exact exists_congr fun t => and_congr_right fun _ => ih _ t
      | escaped c => exact exists_congr fun t => and_congr_right fun _ => ih _ t

/-- A string that a pattern means: of any character an `x`, of any sequence this one. -/
def fill (u : List Char) : List Sign → List Char
  | [] => []
  | .star :: g => u ++ fill u g
  | .any :: g => 'x' :: fill u g
  | .char c :: g => c :: fill u g
  | .escaped c :: g => c :: fill u g

theorem glob_fill (u : List Char) (g : List Sign) : Glob (fun _ => True) g (fill u g) := by
  induction g with
  | nil => rfl
  | cons a g ih =>
      cases a with
      | star => exact ⟨u, _, rfl, fun _ _ => trivial, ih⟩
      | any => exact ⟨'x', _, rfl, trivial, ih⟩
      | char c => exact ⟨_, rfl, ih⟩
      | escaped c => exact ⟨_, rfl, ih⟩

theorem le_count_fill (u : List Char) (hstar : .star ∈ g) : u.count '\n' ≤ (fill u g).count '\n' := by
  induction g with
  | nil => cases hstar
  | cons a g ih =>
      cases a with
      | star =>
          rw [fill, List.count_append]
          exact Nat.le_add_right _ _
      | any => exact Nat.le_trans (ih (by simpa using hstar)) List.count_le_count_cons
      | char c => exact Nat.le_trans (ih (by simpa using hstar)) List.count_le_count_cons
      | escaped c => exact Nat.le_trans (ih (by simpa using hstar)) List.count_le_count_cons

/-- No dollar sign is lost in the regular expression, and none is new. -/
theorem count_regex (g : List Sign) : (regex g).count '$' = (fill [] g).count '$' := by
  induction g with
  | nil => rfl
  | cons a g ih =>
      rw [regex, List.flatMap_cons, List.count_append]
      change a.regex.count '$' + (regex g).count '$' = _
      rw [ih]
      cases a with
      | star => exact Nat.zero_add _
      | any => exact Nat.zero_add _
      | char c =>
          rw [fill, List.count_cons, Sign.regex]
          split_ifs <;> simp_all [Nat.add_comm]
      | escaped c =>
          rw [fill, List.count_cons, Sign.regex]
          simp [List.count_cons, Nat.add_comm]

/-- A text with more newlines than the regular expression has parts is not read to its end; where it is not
to be, the dollar sign of the end is one that the text does not have. -/
theorem star_not_meant (hstar : .star ∈ g) (h : parse category false (regex g ++ ['$']) = some ns) :
    ¬ ∀ s, Matches ns prev s ↔ Glob (fun _ => True) g s := by
  intro hmeant
  by_cases hend : .endText ∈ ns
  · have hmatch := (hmeant _).mpr (glob_fill (List.replicate (ns.length + 1) '\n') g)
    have hle := hmatch.newlines_le hend
    have hcount := le_count_fill (List.replicate (ns.length + 1) '\n') hstar
    rw [List.count_replicate_self] at hcount
    omega
  · have hmatch := (hmeant _).mpr (glob_fill [] g)
    have hle := hmatch.countP_le '$'
    have hcount := parse_count h hend
    have hone : ['$'].count '$' = 1 := rfl
    rw [List.count_append, count_regex, hone] at hcount
    omega

/-- Letters and digits of a regular expression are of signs for themselves. -/
theorem regex_split {k : Nat} (hk : k ≤ (regex g ++ ['$']).length)
    (halpha : ∀ x ∈ (regex g ++ ['$']).take k, x.isAlphanum = true) :
    ∃ (ds : List Char) (g' : List Sign), g = ds.map .char ++ g' ∧ ds.length = k ∧ (∀ x ∈ ds, x.isAlphanum = true) ∧
      (regex g ++ ['$']).drop k = regex g' ++ ['$'] := by
  induction k generalizing g with
  | zero => exact ⟨[], g, rfl, rfl, by simp, rfl⟩
  | succ k ih =>
      have hback : ¬ ('\\').isAlphanum = true := by decide
      rcases g with _ | ⟨a, g⟩
      · exact absurd (halpha '$' (by simp [regex])) (by decide)
      · rw [regex, List.flatMap_cons, List.append_assoc] at hk halpha ⊢
        change k + 1 ≤ (a.regex ++ (regex g ++ ['$'])).length at hk
        change ∀ x ∈ (a.regex ++ (regex g ++ ['$'])).take (k + 1), _ at halpha
        cases a with
        | star => exact absurd (halpha '.' (by simp [Sign.regex])) (by decide)
        | any => exact absurd (halpha '.' (by simp [Sign.regex])) (by decide)
        | escaped c => exact absurd (halpha '\\' (by simp [Sign.regex])) hback
        | char c =>
            by_cases hreplaced : c ∈ ['+', ')', '$', '.', '{', '}', '|', '^']
            · exact absurd (halpha '\\' (by simp [Sign.regex, hreplaced])) hback
            · rw [Sign.regex, if_neg hreplaced] at hk halpha ⊢
              obtain ⟨ds, g', rfl, hlength, hds, hdrop⟩ := ih (g := g) (by simpa using hk) (fun x hx => halpha x (by simp [hx]))
              refine ⟨c :: ds, g', rfl, by simp [hlength], ?_, hdrop⟩
              intro x hx
              rcases List.mem_cons.mp hx with rfl | hx
              · exact halpha x (by simp)
              · exact hds x hx

theorem fill_append (ds : List Char) (g : List Sign) : fill [] (ds.map .char ++ g) = ds ++ fill [] g := by
  induction ds with
  | nil => rfl
  | cons c ds ih => exact congrArg (c :: ·) ih

def Word (w : List Char) : Prop := w ≠ [] ∧ ∀ x ∈ w, x.isAlphanum = true

theorem not_matches_literal (hw : Word w) (hc : c.isAlphanum = false) (t : List Char) :
    ¬ Matches (.literal c :: ns) prev (w ++ t) := by
  rintro ⟨r, heq, -⟩
  rcases w with _ | ⟨x, w⟩
  · exact hw.1 rfl
  · obtain ⟨rfl, -⟩ := List.cons.inj heq
    rw [hw.2 x (by simp)] at hc
    cases hc

theorem Word.append_left {v : List Char} (hv : Word v) (h : ∀ x ∈ w, x.isAlphanum = true) : Word (w ++ v) := by
  refine ⟨by simp [hv.1], fun y hy => ?_⟩
  rcases List.mem_append.mp hy with hy | hy
  · exact h y hy
  · exact hv.2 y hy

/-- What the regular expression reads at the first sign of a pattern without stars, between `\Q` and `\E` or not. -/
inductive Reading (category : Char → Char → Bool) : Bool → Sign → List Sign → List Node → Prop
  | any {g : List Sign} {ns : List Node} : parse category false (regex g ++ ['$']) = some ns →
      Reading category false .any g (.anyNotNL :: ns)
  | self {quoted : Bool} {a : Sign} {g : List Sign} {c : Char} {ns : List Node} : a = .char c ∨ a = .escaped c →
      (quoted = false → a.Plain) → parse category quoted (regex g ++ ['$']) = some ns →
      Reading category quoted a g (.literal c :: ns)
  -- the backslash or the dot that is written for the sign
  | back {a : Sign} {g : List Sign} {c : Char} {ns : List Node} : c.isAlphanum = false →
      Reading category true a g (.literal c :: ns)
  | quote {g : List Sign} {ns : List Node} : parse category true (regex g ++ ['$']) = some ns →
      Reading category false (.escaped 'Q') g ns
  | close {g : List Sign} {ns : List Node} : parse category false (regex g ++ ['$']) = some ns →
      Reading category true (.escaped 'E') g ns
  -- an escaped letter or digit with those that belong to it
  | stray {g : List Sign} {c : Char} {ds s : List Char} {n : Node} {ns : List Node} : c.isAlphanum = true →
      (∀ x ∈ ds, x.isAlphanum = true) → Stray c s n ds.length → parse category false (regex g ++ ['$']) = some ns →
      Reading category false (.escaped c) (ds.map .char ++ g) (n :: ns)

theorem reading_escaped (hproper : ∀ a ∈ .escaped c :: g, a.Proper)
    (h : parse category false ('\\' :: c :: (regex g ++ ['$'])) = some ns) :
    Reading category false (.escaped c) g ns := by
  cases halpha : c.isAlphanum with
  | false =>
      by_cases hascii : c.toNat < 128
      · obtain ⟨ns, hns, rfl⟩ := Option.map_eq_some_iff.mp ((parse_sign hproper ⟨hascii, halpha⟩).symm.trans h)
        exact .self (.inr rfl) (fun _ => ⟨hascii, halpha⟩) hns
      · cases (parse_unknown halpha hascii).symm.trans h
  | true =>
      by_cases hquote : c = 'Q'
      · subst hquote
        exact .quote (parse_quote.symm.trans h)
      · rw [parse_escape hquote] at h
        cases hescape : escape category c (regex g ++ ['$']) with
        | none =>
            rw [hescape] at h
            cases h
        | some r =>
            obtain ⟨n, k⟩ := r
            rw [hescape] at h
            obtain ⟨ns, hns, rfl⟩ := Option.map_eq_some_iff.mp h
            have hstray := escape_of_alphanum halpha hescape
            obtain ⟨ds, g', rfl, rfl, hds, hdrop⟩ := regex_split hstray.length hstray.alphanum
            rw [hdrop] at hns
            exact .stray halpha hds hstray hns

theorem parse_reading {quoted : Bool} {a : Sign} (hproper : ∀ b ∈ a :: g, b.Proper) (hstar : a ≠ .star)
    (h : parse category quoted (regex (a :: g) ++ ['$']) = some ns) : Reading category quoted a g ns := by
  rw [regex, List.flatMap_cons, List.append_assoc] at h
  change parse category quoted (a.regex ++ (regex g ++ ['$'])) = some ns at h
  have hproper' : ∀ b ∈ g, b.Proper := fun b hb => hproper b (List.mem_cons_of_mem _ hb)
  have hback {t : List Char} (h : (parse category true t).map (.literal '\\' :: ·) = some ns) :
      Reading category true a g ns := by
    obtain ⟨ns, -, rfl⟩ := Option.map_eq_some_iff.mp h
    exact .back (by decide)
  cases a with
  | star => exact absurd rfl hstar
  | any =>
      cases quoted with
      | true =>
          obtain ⟨ns, -, rfl⟩ := Option.map_eq_some_iff.mp ((parse_quoted fun hc => absurd hc (by decide)).symm.trans h)
          exact .back (by decide)
      | false =>
          obtain ⟨ns, hns, rfl⟩ := Option.map_eq_some_iff.mp ((parse_anyNotNL (head_ne_star hproper')).symm.trans h)
          exact .any hns
  | char c =>
      have hc := hproper (.char c) List.mem_cons_self
      cases quoted with
      | true =>
          rw [Sign.regex] at h
          split_ifs at h with hreplaced
          · refine hback ((parse_quoted fun _ he => ?_).symm.trans h)
            obtain rfl := Option.some.inj he
            exact absurd hreplaced (by decide)
          · have hne : c ≠ '\\' := by
              rintro rfl
              simp [Sign.Proper] at hc
            obtain ⟨ns, hns, rfl⟩ := Option.map_eq_some_iff.mp ((parse_quoted fun he => absurd he hne).symm.trans h)
            exact .self (.inl rfl) (fun hq => absurd hq (by decide)) hns
      | false =>
          by_cases hparen : c = '('
          · subst hparen
            cases parse_open.symm.trans h
          · obtain ⟨ns, hns, rfl⟩ := Option.map_eq_some_iff.mp ((parse_sign hproper hparen).symm.trans h)
            exact .self (.inl rfl) (fun _ => hparen) hns
  | escaped c =>
      cases quoted with
      | true =>
          by_cases hclose : c = 'E'
          · subst hclose
            exact .close (parse_close.symm.trans h)
          · refine hback ((parse_quoted (s := c :: (regex g ++ ['$'])) fun _ he => ?_).symm.trans h)
            exact hclose (Option.some.inj he)
      | false => exact reading_escaped hproper h

/-- A part that takes a character takes the first, and as many are in front as before. -/
theorem matches_behind {n : Node} (hw : Word w) {v : List Char} (hv : Word v) (hmark : n.isMark = false)
    (hstar : n ≠ .starNotNL) (h : Matches (n :: ns) prev (w ++ (v ++ t))) :
    ∃ u x, Word u ∧ Matches ns (some x) (u ++ t) := by
  rcases w with _ | ⟨x, w⟩
  · exact absurd rfl hw.1
  · rw [List.cons_append, matches_cons hmark hstar] at h
    rw [← List.append_assoc] at h
    exact ⟨w ++ v, x, hv.append_left fun y hy => hw.2 y (List.mem_cons_of_mem _ hy), h.2⟩

theorem word_singleton (hc : c.isAlphanum = true) : Word [c] := ⟨by simp, by simpa using hc⟩

/-- A text that has more letters and digits in front than are left of the regular expression is not read: it
reads one of them for each that comes. The induction is on the signs. -/
theorem not_matches_behind {quoted : Bool} (hproper : ∀ a ∈ g, a.Proper) (hstar : .star ∉ g) (hw : Word w)
    (h : parse category quoted (regex g ++ ['$']) = some ns) : ¬ Matches ns prev (w ++ fill [] g) := by
  induction hlen : g.length using Nat.strongRecOn generalizing g w ns prev quoted with
  | _ len ih =>
      have hnext {g' : List Sign} (hlength : g'.length < g.length) (hsub : ∀ a ∈ g', a ∈ g) {w : List Char}
          (hw : Word w) {quoted : Bool} {ns : List Node} (prev : Option Char)
          (h : parse category quoted (regex g' ++ ['$']) = some ns) : ¬ Matches ns prev (w ++ fill [] g') :=
        ih g'.length (hlen ▸ hlength) (fun a ha => hproper a (hsub a ha)) (fun hs => hstar (hsub _ hs)) hw h rfl
      rcases g with _ | ⟨a, g⟩
      · cases quoted with
        | false =>
            obtain rfl := Option.some.inj (parse_end.symm.trans h)
            rintro ⟨hnil, -⟩
            exact hw.1 (List.append_eq_nil_iff.mp hnil).1
        | true =>
            have hdollar : parse category true ['$'] = some [.literal '$'] := by
              rw [parse_quoted (by decide), parse_nil]
              rfl
            obtain rfl := Option.some.inj (hdollar.symm.trans h)
            exact not_matches_literal hw (by decide) _
      · have hsub : ∀ b ∈ g, b ∈ a :: g := fun b hb => List.mem_cons_of_mem _ hb
        have ha : a ≠ .star := fun ha => hstar (ha ▸ List.mem_cons_self)
        -- a letter that turns quotation on or off
        have hgrow {c : Char} (hc : c.isAlphanum = true) {quoted : Bool}
            (h : parse category quoted (regex g ++ ['$']) = some ns) : ¬ Matches ns prev (w ++ c :: fill [] g) := by
          have hnot := hnext (Nat.lt_succ_self _) hsub ((word_singleton hc).append_left hw.2) prev h
          rwa [List.append_assoc] at hnot
        cases parse_reading hproper ha h with
        | any hns =>
            intro hmatch
            obtain ⟨u, x, hu, hmatch⟩ :=
              matches_behind (n := .anyNotNL) hw (word_singleton (c := 'x') (by decide)) rfl (by simp) hmatch
            exact hnext (Nat.lt_succ_self _) hsub hu _ hns hmatch
        | @self _ _ _ c ns hself _ hns =>
            have hfill : fill [] (a :: g) = c :: fill [] g := by
              rcases hself with rfl | rfl <;> rfl
            rw [hfill]
            cases hc : c.isAlphanum with
            | false => exact not_matches_literal hw hc _
            | true =>
                intro hmatch
                obtain ⟨u, x, hu, hmatch⟩ := matches_behind (n := .literal c) hw (word_singleton hc) rfl (by simp) hmatch
                exact hnext (Nat.lt_succ_self _) hsub hu _ hns hmatch
        | back hc => exact not_matches_literal hw hc _
        | quote hns => exact hgrow (by decide) hns
        | close hns => exact hgrow (by decide) hns
        | @stray g' c ds _ n ns hc hds hstray hns =>
            have hword : Word (c :: ds) := ⟨by simp, by simpa [hc] using hds⟩
            have hrest {w : List Char} (hw : Word w) (prev : Option Char) : ¬ Matches ns prev (w ++ fill [] g') :=
              hnext (by simp only [List.length_cons, List.length_append]; omega) (fun b hb => by simp [hb]) hw prev hns
            rw [fill, fill_append]
            intro hmatch
            cases hmark : n.isMark with
            | true =>
                have hbehind := matches_of_mark hmark hmatch
                rw [← List.cons_append, ← List.append_assoc] at hbehind
                exact hrest (hword.append_left hw.2) prev hbehind
            | false =>
                obtain ⟨u, x, hu, hbehind⟩ := matches_behind hw hword hmark hstray.one hmatch
                exact hrest hu (some x) hbehind

/-- An escaped letter or digit is not read as itself, or something else is too. -/
theorem stray_not_meant {n : Node} {ds : List Char} (hproper : ∀ a ∈ g, a.Proper) (hstar : .star ∉ g)
    (hc : c.isAlphanum = true) (hds : ∀ x ∈ ds, x.isAlphanum = true) (hstray : Stray c s n ds.length)
    (h : parse category false (regex g ++ ['$']) = some ns) :
    ¬ ∀ s, Matches (n :: ns) prev s ↔ Glob (fun _ => True) (.escaped c :: (ds.map .char ++ g)) s := by
  intro hmeant
  have hword : Word (c :: ds) := ⟨by simp, by simpa [hc] using hds⟩
  have hrest {w : List Char} (hw : Word w) (prev : Option Char) : ¬ Matches ns prev (w ++ fill [] g) :=
    not_matches_behind hproper hstar hw h
  have hfill := (hmeant _).mpr (glob_fill [] _)
  rw [fill, fill_append] at hfill
  cases hmark : n.isMark with
  | true => exact hrest hword prev (matches_of_mark hmark hfill)
  | false =>
      rw [matches_cons hmark hstray.one] at hfill
      obtain ⟨htakes, hfill⟩ := hfill
      rcases hstray.other with h' | hlength | hnot | ⟨x, hne, hx, hxword⟩
      · rw [hmark] at h'
        cases h'
      · exact hrest ⟨List.ne_nil_of_length_pos hlength, hds⟩ (some c) hfill
      · rw [htakes] at hnot
        cases hnot
      · -- another character of a word instead of this one
        have hcword : isWord c = true := by simp [isWord, hc]
        have hsame : (some c).any isWord = (some x).any isWord := by simp [hcword, hxword]
        have hother : Matches ns (some x) (ds ++ fill [] g) := matches_congr hsame (by simp) hfill
        have hglob := (hmeant (x :: (ds ++ fill [] g))).mp ((matches_cons hmark hstray.one).mpr ⟨hx, hother⟩)
        obtain ⟨t, heq, -⟩ := hglob
        exact hne (List.cons.inj heq).1

/-- A pattern without stars that matches what it means has no sign that the regular expression reads in another
way, and no wildcard. -/
theorem plain_of_meant (hproper : ∀ a ∈ g, a.Proper) (hstar : .star ∉ g)
    (h : parse category false (regex g ++ ['$']) = some ns)
    (hmeant : ∀ s, Matches ns prev s ↔ Glob (fun _ => True) g s) : ∀ a ∈ g, a.Plain ∧ a ≠ .any := by
  induction g generalizing ns prev with
  | nil => simp
  | cons a g ih =>
      have hproper' : ∀ b ∈ g, b.Proper := fun b hb => hproper b (List.mem_cons_of_mem _ hb)
      have hstar' : .star ∉ g := fun hs => hstar (List.mem_cons_of_mem _ hs)
      have ha : a ≠ .star := fun ha => hstar (ha ▸ List.mem_cons_self)
      cases parse_reading hproper ha h with
      | any hns =>
          have hglob : Glob (fun _ => True) (.any :: g) ('\n' :: fill [] g) := ⟨'\n', _, rfl, trivial, glob_fill [] g⟩
          obtain ⟨c, t, heq, hc, -⟩ := (hmeant _).mpr hglob
          exact absurd (List.cons.inj heq).1.symm hc
      | @self _ _ _ c ns hself hplain hns =>
          have hmeant' (s : List Char) : Matches ns (some c) s ↔ Glob (fun _ => True) g s := by
            have hglob : Glob (fun _ => True) (a :: g) (c :: s) ↔ Glob (fun _ => True) g s := by
              rcases hself with rfl | rfl <;> simp [Glob]
            rw [← hglob, ← hmeant, matches_cons (n := .literal c) rfl (by simp)]
            simp [Node.takes]
          intro b hb
          rcases List.mem_cons.mp hb with rfl | hb
          · refine ⟨hplain rfl, ?_⟩
            rcases hself with rfl | rfl <;> simp
          · exact ih hproper' hstar' hns hmeant' b hb
      | quote hns =>
          have hfill := (hmeant _).mpr (glob_fill [] _)
          exact absurd hfill (not_matches_behind hproper' hstar' (word_singleton (c := 'Q') (by decide)) hns)
      | stray hc hds hstray hns =>
          refine absurd hmeant (stray_not_meant (fun b hb => hproper' b ?_) (fun hs => hstar' ?_) hc hds hstray hns)
          · exact List.mem_append_right _ hb
          · exact List.mem_append_right _ hs

theorem glob_mono {free free' : Char → Prop} (hfree : ∀ c, free c → free' c) (h : Glob free g s) : Glob free' g s := by
  induction g generalizing s with
  | nil => exact h
  | cons a g ih =>
      cases a with
      | star =>
          obtain ⟨u, t, rfl, hu, h⟩ := h
          exact ⟨u, t, rfl, fun c hc => hfree c (hu c hc), ih h⟩
      | any =>
          obtain ⟨c, t, rfl, hc, h⟩ := h
          exact ⟨c, t, rfl, hfree c hc, ih h⟩
      | char c =>
          obtain ⟨t, rfl, h⟩ := h
          exact ⟨t, rfl, ih h⟩
      | escaped c =>
          obtain ⟨t, rfl, h⟩ := h
          exact ⟨t, rfl, ih h⟩

/-- Without wildcards it does not matter what they stand for. -/
theorem glob_congr {free free' : Char → Prop} (hstar : .star ∉ g) (hany : .any ∉ g) (h : Glob free g s) :
    Glob free' g s := by
  induction g generalizing s with
  | nil => exact h
  | cons a g ih =>
      have hg {t : List Char} (h : Glob free g t) : Glob free' g t :=
        ih (fun hs => hstar (List.mem_cons_of_mem _ hs)) (fun hs => hany (List.mem_cons_of_mem _ hs)) h
      cases a with
      | star => exact absurd List.mem_cons_self hstar
      | any => exact absurd List.mem_cons_self hany
      | char c =>
          obtain ⟨t, rfl, h⟩ := h
          exact ⟨t, rfl, hg h⟩
      | escaped c =>
          obtain ⟨t, rfl, h⟩ := h
          exact ⟨t, rfl, hg h⟩

variable {p key : List Char}

def Meets (category : Char → Char → Bool) (p : List Char) (g : List Sign) (key : List Char) : Prop :=
  ∃ re, compilePattern category (encode p) = some re ∧ (re.IsMatch key ↔ Glob (fun _ => True) g key)

def Ordinary (g : List Sign) (key : List Char) : Prop :=
  Glob (fun _ => True) g key → Glob (· ≠ '\n') g key

theorem meets_iff (hg : signs p = some g) (hopen : '[' ∉ p) :
    Meets category p g key ↔
      ∃ ns, parse category false (regex g ++ ['$']) = some ns ∧ (Matches ns none key ↔ Glob (fun _ => True) g key) := by
  rw [Meets, compilePattern_encode category hg hopen, parse_begin]
  cases parse category false (regex g ++ ['$']) with
  | none => simp
  | some ns =>
      simp only [Option.map_some, Option.some.injEq, exists_eq_left']
      rw [Pattern.IsMatch, match_beginText]

theorem meets_plain (hg : signs p = some g) (hopen : '[' ∉ p) (hclose : ']' ∉ p) (hplain : ∀ a ∈ g, a.Plain) :
    Meets category p g key ↔ Ordinary g key := by
  rw [meets_iff hg hopen, parse_plain (signs_proper hg hopen hclose) hplain]
  simp only [Option.some.injEq, exists_eq_left']
  rw [matches_plain]
  exact ⟨fun h => h.mpr, fun h => ⟨glob_mono fun _ _ => trivial, h⟩⟩

structure Compiles {σ : Type} (category : Char → Char → Bool) (env : Database.Env σ) : Prop where
  compiled : ∀ src, (env.lib.compilePattern src).isSome = (compilePattern category src).isSome
  matched : ∀ src isMatch re key, env.lib.compilePattern src = some isMatch → compilePattern category src = some re →
    (isMatch (encode key) = true ↔ re.IsMatch key)

/-- The keys that are listed for a pattern in which nothing is read in another way. -/
theorem execKeys_lists {σ : Type} {env : Database.Env σ} (w : Database.World σ) (hlib : Compiles category env)
    (hg : signs p = some g) (hopen : '[' ∉ p) (hclose : ']' ∉ p) (hplain : ∀ a ∈ g, a.Plain) :
    ∃ listed, Lib.Effects.value (Database.execKeys env [some (encode p)]) w = some (.multiBulk listed) ∧
      ∀ key, some (encode key) ∈ listed ↔ encode key ∈ w.db.data.keys ∧ Glob (· ≠ '\n') g key := by
  have hcompiled : compilePattern category (encode p) =
      some ⟨.beginText :: (g.map Sign.node ++ [.endText])⟩ := by
    rw [compilePattern_encode category hg hopen, parse_begin, parse_plain (signs_proper hg hopen hclose) hplain]
    rfl
  have hsome := hlib.compiled (encode p)
  rw [hcompiled] at hsome
  obtain ⟨isMatch, hmatch⟩ := Option.isSome_iff_exists.mp hsome
  obtain ⟨hvalue, -⟩ := Database.execKeys_run env (some (encode p)) [] w
  have htext : Database.text (some (encode p)) = encode p := rfl
  rw [htext, hmatch] at hvalue
  refine ⟨_, hvalue, fun key => ?_⟩
  have hkey := hlib.matched _ _ _ key hmatch hcompiled
  rw [Pattern.IsMatch, match_beginText, matches_plain] at hkey
  simp [env.choices.mem_order, hkey]

/-- A pattern means what it says for every key when nothing in it is read in another way and it has no
wildcard, and never else; with wildcards it does for the keys in which they stand for no newline. -/
theorem keyPatterns_iff (category : Char → Char → Bool) (hg : signs p = some g) (hopen : '[' ∉ p) (hclose : ']' ∉ p) :
    ((∀ key, Meets category p g key) ↔ (∀ a ∈ g, a.Plain) ∧ .star ∉ g ∧ .any ∉ g) ∧
      ((∀ a ∈ g, a.Plain) → ∀ key, Meets category p g key ↔ Ordinary g key) := by
  have hproper := signs_proper hg hopen hclose
  refine ⟨⟨fun h => ?_, ?_⟩, fun hplain key => meets_plain hg hopen hclose hplain⟩
  · obtain ⟨ns, hns, -⟩ := (meets_iff hg hopen).mp (h [])
    have hmeant (s : List Char) : Matches ns none s ↔ Glob (fun _ => True) g s := by
      obtain ⟨ns', hns', hs⟩ := (meets_iff hg hopen).mp (h s)
      obtain rfl := Option.some.inj (hns.symm.trans hns')
      exact hs
    have hstar : .star ∉ g := fun hs => star_not_meant hs hns hmeant
    have hall := plain_of_meant hproper hstar hns hmeant
    exact ⟨fun a ha => (hall a ha).1, hstar, fun hany => (hall _ hany).2 rfl⟩
  · rintro ⟨hplain, hstar, hany⟩ key
    exact (meets_plain hg hopen hclose hplain).mpr (glob_congr hstar hany)

theorem keyPatterns_iff_hello :
    Meets (fun _ _ => false) ['h', '?', 'l', '*', 'o'] [.char 'h', .any, .char 'l', .star, .char 'o']
      ['h', 'e', 'l', 'l', 'o'] := by
  have hiff := keyPatterns_iff (p := ['h', '?', 'l', '*', 'o']) (fun _ _ => false) rfl (by decide) (by decide)
  apply (hiff.2 (by simp [Sign.Plain]) _).mpr
  intro _
  exact ⟨_, rfl, 'e', _, rfl, by decide, _, rfl, ['l'], ['o'], rfl, by simp, [], rfl, rfl⟩

/-- The star of all keys leaves out the one that is a newline. -/
theorem keyPatterns_fails : signs ['*'] = some [.star] ∧ ¬ Meets (fun _ _ => false) ['*'] [.star] ['\n'] := by
  refine ⟨rfl, ?_⟩
  rw [meets_plain rfl (by decide) (by decide) (by simp [Sign.Plain])]
  intro h
  obtain ⟨u, t, heq, hu, rfl⟩ := h ⟨['\n'], [], rfl, fun _ _ => trivial, rfl⟩
  rw [List.append_nil] at heq
  exact hu '\n' (heq ▸ List.mem_singleton_self _) rfl

end Traitor.Wildcard
