import Mathlib.Data.List.Infix
import Mathlib.Tactic.Common
import Traitor.Lib.Strconv

namespace Traitor.Lib.Printf

open Strconv

def ascii (s : String) : List UInt8 := s.toList.map fun c => c.toNat.toUInt8

/-- How far a directive is read: what is left of the format, what has been written for it,
whether its index is good, and whether an index stands right before. -/
structure Directive where
  format : List UInt8
  out : List UInt8
  goodArgNum : Bool
  afterIndex : Bool

def isFlag (c : UInt8) : Bool := c = 35 || c = 48 || c = 43 || c = 45 || c = 32

/-- The rest after the digits, and whether there are any. A number that is too large takes
the rest of the format with it. -/
def parsenumFrom (num : Nat) (isnum : Bool) : List UInt8 → List UInt8 × Bool
  | [] => ([], isnum)
  | c :: s =>
      if isDigit c then
        if 1000000 < num then ([], false) else parsenumFrom (num * 10 + (c.toNat - 48)) true s
      else (c :: s, isnum)

def parsenum (s : List UInt8) : List UInt8 × Bool := parsenumFrom 0 false s

/-- After the opening bracket: the rest, and whether a number is in the brackets. -/
def parseArgNumber (s : List UInt8) : List UInt8 × Bool :=
  if s.length < 2 then (s, false)
  else
    match s.dropWhile (fun c => c ≠ 93) with
    | [] => (s, false)
    | _ :: rest =>
        let num := parsenum (s.takeWhile fun c => c ≠ 93)
        (rest, num.1 = [] ∧ num.2)

/-- There is no operand, so that no index is good. -/
def argNumber (d : Directive) : Directive :=
  if d.format.head? = some 91 then
    let num := parseArgNumber d.format.tail
    { d with format := num.1, goodArgNum := false, afterIndex := num.2 }
  else { d with afterIndex := false }

def badWidthString : List UInt8 := ascii "%!(BADWIDTH)"

def badPrecString : List UInt8 := ascii "%!(BADPREC)"

def noVerbString : List UInt8 := ascii "%!(NOVERB)"

def star (complaint : List UInt8) (d : Directive) : Directive :=
  if d.format.head? = some 42 then
    { d with format := d.format.tail, out := d.out ++ complaint, afterIndex := false }
  else { d with format := (parsenum d.format).1 }

def precision (d : Directive) : Directive :=
  if d.format.head? = some 46 then star badPrecString (argNumber { d with format := d.format.tail })
  else d

def index (d : Directive) : Directive := if d.afterIndex then d else argNumber d

def isCont (c : UInt8) : Bool := 128 ≤ c && c ≤ 191

/-- The number of bytes of the character in front. None is a byte that starts no
character. -/
def runeSize : List UInt8 → Option Nat
  | [] => none
  | c :: s =>
      if c < 128 then some 1
      else if 194 ≤ c ∧ c ≤ 223 ∧ (s.take 1).length = 1 ∧ (s.take 1).all isCont then some 2
      else if 224 ≤ c ∧ c ≤ 239 ∧ (s.take 2).length = 2 ∧ (s.take 2).all isCont ∧
          (c = 224 → 160 ≤ s.headD 0) ∧ (c = 237 → s.headD 0 ≤ 159) then some 3
      else if 240 ≤ c ∧ c ≤ 244 ∧ (s.take 3).length = 3 ∧ (s.take 3).all isCont ∧
          (c = 240 → 144 ≤ s.headD 0) ∧ (c = 244 → s.headD 0 ≤ 143) then some 4
      else none

def decodeRune (s : List UInt8) : List UInt8 × List UInt8 :=
  match runeSize s with
  | none => ([239, 191, 189], s.tail)
  | some size => (s.take size, s.drop size)

def verb (d : Directive) : List UInt8 × List UInt8 :=
  if d.format = [] then (d.out ++ noVerbString, [])
  else
    let (verb, rest) := decodeRune d.format
    if verb = [37] then (d.out ++ [37], rest)
    else (d.out ++ (ascii "%!" ++ verb ++
      if d.goodArgNum then ascii "(MISSING)" else ascii "(BADINDEX)"), rest)

def directive (s : List UInt8) : List UInt8 × List UInt8 :=
  verb (index (precision (star badWidthString (argNumber ⟨s.dropWhile isFlag, [], true, false⟩))))

/-- A complaint is written with one percent sign, in front. -/
structure Reads (d d' : Directive) : Prop where
  format : d'.format <:+ d.format
  out : ∃ words : List (List UInt8), (∀ word ∈ words, 37 ∉ word ∧ 58 ∉ word) ∧
    d'.out = d.out ++ words.flatMap fun word => 37 :: 33 :: word

variable {d d' d'' : Directive}

theorem Reads.silent (hformat : d'.format <:+ d.format) (hout : d'.out = d.out) : Reads d d' :=
  ⟨hformat, [], by simp, by simp [hout]⟩

theorem Reads.trans (h : Reads d d') (h' : Reads d' d'') : Reads d d'' := by
  obtain ⟨words, hwords, hout⟩ := h.out
  obtain ⟨words', hwords', hout'⟩ := h'.out
  refine ⟨h'.format.trans h.format, words ++ words', ?_, ?_⟩
  · intro word hword
    exact (List.mem_append.mp hword).elim (hwords word) (hwords' word)
  · rw [hout', hout, List.flatMap_append, List.append_assoc]

theorem parsenumFrom_suffix (s : List UInt8) (num : Nat) (isnum : Bool) :
    (parsenumFrom num isnum s).1 <:+ s := by
  induction s generalizing num isnum with
  | nil => exact List.suffix_rfl
  | cons c s ih =>
      rw [parsenumFrom]
      split
      · split
        · exact List.nil_suffix
        · exact (ih _ _).trans (List.suffix_cons _ _)
      · exact List.suffix_rfl

theorem parseArgNumber_suffix (s : List UInt8) : (parseArgNumber s).1 <:+ s := by
  rw [parseArgNumber]
  split
  · exact List.suffix_rfl
  · split
    · exact List.suffix_rfl
    · next c rest hdrop =>
        have hsuffix : c :: rest <:+ s := hdrop ▸ List.dropWhile_suffix fun c => decide (c ≠ 93)
        exact (List.suffix_cons c rest).trans hsuffix

theorem argNumber_reads (d : Directive) : Reads d (argNumber d) := by
  rw [argNumber]
  split
  · exact .silent ((parseArgNumber_suffix _).trans (List.tail_suffix _)) rfl
  · exact .silent List.suffix_rfl rfl

theorem star_reads (word : List UInt8) (hword : 37 ∉ word ∧ 58 ∉ word) (d : Directive) :
    Reads d (star (37 :: 33 :: word) d) := by
  rw [star]
  split
  · exact ⟨List.tail_suffix _, [word], by simpa using hword, by simp⟩
  · exact .silent (parsenumFrom_suffix _ _ _) rfl

theorem precision_reads (d : Directive) : Reads d (precision d) := by
  rw [precision]
  split
  · have htail : Reads d { d with format := d.format.tail } := .silent (List.tail_suffix _) rfl
    exact htail.trans ((argNumber_reads _).trans (star_reads (ascii "(BADPREC)") (by decide) _))
  · exact .silent List.suffix_rfl rfl

theorem index_reads (d : Directive) : Reads d (index d) := by
  rw [index]
  split
  · exact .silent List.suffix_rfl rfl
  · exact argNumber_reads d

theorem runeSize_take {s : List UInt8} {size : Nat} (h : runeSize s = some size) :
    s.take size = [s.headD 0] ∨ ∀ c ∈ s.take size, 128 ≤ c := by
  cases s with
  | nil => simp [runeSize] at h
  | cons c s =>
      have hcont {k : Nat} (hc : 128 ≤ c) (hall : (s.take k).all isCont = true) :
          ∀ b ∈ (c :: s).take (k + 1), 128 ≤ b := by
        intro b hb
        rcases List.mem_cons.mp hb with rfl | hb
        · exact hc
        · have := List.all_eq_true.mp hall b hb
          simp only [isCont, Bool.and_eq_true, decide_eq_true_eq] at this
          exact this.1
      rw [runeSize] at h
      split at h
      · cases h
        exact .inl rfl
      · next hc =>
          rw [UInt8.not_lt] at hc
          split at h
          · next h2 =>
              cases h
              exact .inr (hcont hc h2.2.2.2)
          · split at h
            · next h3 =>
                cases h
                exact .inr (hcont hc h3.2.2.2.1)
            · split at h
              · next h4 =>
                  cases h
                  exact .inr (hcont hc h4.2.2.2.1)
              · cases h

/-- A percent sign is no part of a longer character. -/
theorem decodeRune_spec (s : List UInt8) :
    (decodeRune s).2 <:+ s ∧ (58 ∈ (decodeRune s).1 → 58 ∈ s) ∧
      (37 ∈ (decodeRune s).1 → (decodeRune s).1 = [37]) ∧
      ((decodeRune s).1 = [37] → 37 :: (decodeRune s).2 <:+ s) := by
  rw [decodeRune]
  cases hsize : runeSize s with
  | none => exact ⟨List.tail_suffix _, by simp, by simp, by simp⟩
  | some size =>
      refine ⟨List.drop_suffix _ _, List.mem_of_mem_take, fun hmem => ?_, fun heq => ?_⟩
      · rcases runeSize_take hsize with hone | hbig
        · have hhead : 37 = s.headD 0 := by simpa [hone] using hmem
          exact hone.trans (by rw [← hhead])
        · exact absurd (hbig 37 hmem) (by decide)
      · dsimp only at heq ⊢
        have hsplit := List.take_append_drop size s
        rw [heq] at hsplit
        exact ⟨[], hsplit⟩

/-- What is written for a directive: complaints, and a percent sign of its own only for one
that is the verb. -/
theorem directive_spec (s : List UInt8) :
    (directive s).2 <:+ s ∧ ∃ words : List (List UInt8),
      (∀ word ∈ words, 37 ∉ word ∧ (58 ∈ word → 58 ∈ s)) ∧
      ((words ≠ [] ∧ (directive s).1 = words.flatMap fun word => 37 :: 33 :: word) ∨
        (37 :: (directive s).2 <:+ s ∧
          (directive s).1 = (words.flatMap fun word => 37 :: 33 :: word) ++ [37])) := by
  have hflags : Reads ⟨s, [], true, false⟩ ⟨s.dropWhile isFlag, [], true, false⟩ :=
    .silent (List.dropWhile_suffix _) rfl
  have hreads := (((hflags.trans (argNumber_reads _)).trans
    (star_reads (ascii "(BADWIDTH)") (by decide) _)).trans (precision_reads _)).trans (index_reads _)
  rw [directive]
  change Reads _ (index (precision (star badWidthString _))) at hreads
  generalize index (precision (star badWidthString
    (argNumber ⟨s.dropWhile isFlag, [], true, false⟩))) = d at hreads
  obtain ⟨hformat, words, hwords, hout⟩ := hreads
  have hwords' : ∀ word ∈ words, 37 ∉ word ∧ (58 ∈ word → 58 ∈ s) :=
    fun word hword => ⟨(hwords word hword).1, fun h => absurd h (hwords word hword).2⟩
  have hmore {word : List UInt8} (h : 37 ∉ word ∧ (58 ∈ word → 58 ∈ s)) :
      ∀ word' ∈ words ++ [word], 37 ∉ word' ∧ (58 ∈ word' → 58 ∈ s) := by
    intro word' hword
    rcases List.mem_append.mp hword with hword | hword
    · exact hwords' word' hword
    · exact List.mem_singleton.mp hword ▸ h
  dsimp only at hformat hout
  rw [List.nil_append] at hout
  rw [verb]
  split
  · refine ⟨List.nil_suffix, words ++ [ascii "(NOVERB)"],
      hmore ⟨by decide, fun h => absurd h (by decide)⟩, .inl ⟨by simp, ?_⟩⟩
    rw [hout, List.flatMap_append, List.flatMap_singleton]
    rfl
  · next hne =>
      obtain ⟨hrest, hcolon, hpercent, hverb⟩ := decodeRune_spec d.format
      dsimp only
      split
      · next heq =>
          exact ⟨hrest.trans hformat, words, hwords',
            .inr ⟨(hverb heq).trans hformat, by rw [hout]⟩⟩
      · next hne =>
          refine ⟨hrest.trans hformat, words ++ [(decodeRune d.format).1 ++
            if d.goodArgNum then ascii "(MISSING)" else ascii "(BADINDEX)"], hmore ⟨?_, ?_⟩,
            .inl ⟨by simp, ?_⟩⟩
          · intro hmem
            rcases List.mem_append.mp hmem with hmem | hmem
            · exact hne (hpercent hmem)
            · split at hmem <;> exact absurd hmem (by decide)
          · intro hmem
            rcases List.mem_append.mp hmem with hmem | hmem
            · exact hformat.subset (hcolon hmem)
            · split at hmem <;> exact absurd hmem (by decide)
          · rw [hout, List.flatMap_append, List.flatMap_singleton]
            simp [ascii]

def sprintf : List UInt8 → List UInt8
  | [] => []
  | c :: s => if c = 37 then (directive s).1 ++ sprintf (directive s).2 else c :: sprintf s
termination_by s => s.length
decreasing_by
  · exact Nat.lt_succ_of_le (directive_spec s).1.length_le
  · exact Nat.lt_succ_self _

@[simp] theorem sprintf_nil : sprintf [] = [] := by rw [sprintf]

theorem sprintf_cons {c : UInt8} (h : c ≠ 37) (s : List UInt8) : sprintf (c :: s) = c :: sprintf s := by
  rw [sprintf, if_neg h]

theorem sprintf_percent (s : List UInt8) :
    sprintf (37 :: s) = (directive s).1 ++ sprintf (directive s).2 := by rw [sprintf, if_pos rfl]

theorem sprintf_append {s : List UInt8} (h : 37 ∉ s) (t : List UInt8) :
    sprintf (s ++ t) = s ++ sprintf t := by
  induction s with
  | nil => rfl
  | cons c s ih =>
      rw [List.mem_cons, not_or] at h
      rw [List.cons_append, sprintf_cons (Ne.symm h.1), ih h.2, List.cons_append]

theorem directive_bang (s : List UInt8) : directive (33 :: s) = (ascii "%!!(MISSING)", s) := by
  have hflags : (33 :: s).dropWhile isFlag = 33 :: s := rfl
  have hsize : runeSize (33 :: s) = some 1 := rfl
  have hnum : parsenum (33 :: s) = (33 :: s, false) := rfl
  simp [directive, hflags, argNumber, star, precision, index, verb, decodeRune, hsize, hnum, ascii]

/-- Within what is written a percent sign stands before an exclamation mark, or it is the
last one. -/
theorem suffix_words {words : List (List UInt8)} (hwords : ∀ word ∈ words, 37 ∉ word)
    {t o : List UInt8} (h : 37 :: o <:+ (words.flatMap fun word => 37 :: 33 :: word) ++ t) :
    (∃ o', o = 33 :: o') ∨ 37 :: o <:+ t := by
  induction words with
  | nil => exact .inr h
  | cons word words ih =>
      rw [List.flatMap_cons, List.cons_append, List.cons_append, List.append_assoc] at h
      rcases List.suffix_cons_iff.mp h with heq | h
      · exact .inl ⟨_, (List.cons.inj heq).2⟩
      · obtain ⟨z, hz⟩ := h
        rcases List.append_eq_append_iff.mp (hz.trans List.cons_append.symm) with
          ⟨a, hword, ho⟩ | ⟨a, -, ho⟩
        · cases a with
          | nil => exact ih (fun w hw => hwords w (List.mem_cons_of_mem _ hw)) ⟨[], ho⟩
          | cons c a =>
              obtain ⟨rfl, -⟩ := List.cons.inj ho
              have hmem : (37 : UInt8) ∈ 33 :: word := by simp [hword]
              exact absurd (by simpa using hmem) (hwords word List.mem_cons_self)
        · exact ih (fun w hw => hwords w (List.mem_cons_of_mem _ hw)) ⟨a, ho.symm⟩

/-- The text of a format is never the format with a text that has a percent sign in front. -/
theorem sprintf_ne_append {z : List UInt8} (hz : 37 ∈ z) (t : List UInt8) : sprintf t ≠ z ++ t := by
  induction hn : t.length using Nat.strong_induction_on generalizing z t with
  | _ n ih =>
  subst hn
  intro heq
  have shorter {y r : List UInt8} (hy : 37 ∈ y) (hr : r.length < t.length) : sprintf r ≠ y ++ r :=
    ih r.length hr hy r rfl
  cases t with
  | nil =>
      rw [sprintf_nil, List.append_nil] at heq
      exact absurd (heq ▸ hz) (by simp)
  | cons c t =>
      by_cases hc : c = 37
      · subst hc
        rw [sprintf_percent] at heq
        obtain ⟨hrest, words, hwords, hout⟩ := directive_spec t
        have hlt : (directive t).2.length < (37 :: t).length := Nat.lt_succ_of_le hrest.length_le
        obtain ⟨y, hy⟩ := hrest
        rcases List.append_eq_append_iff.mp heq with ⟨a, -, ha⟩ | ⟨a, ho, ha⟩
        · apply shorter (y := a ++ 37 :: y) (by simp) hlt
          rw [ha, List.append_assoc, List.cons_append, hy]
        · cases a with
          | nil =>
              apply shorter (y := 37 :: y) (by simp) hlt
              rw [List.cons_append, hy]
              exact ha.symm
          | cons c a =>
              obtain ⟨rfl, htail⟩ := List.cons.inj ha
              have hsuffix : 37 :: a <:+ (directive t).1 := ⟨z, ho.symm⟩
              have hbang (a' : List UInt8) (hbang : a = 33 :: a') : False := by
                subst hbang
                rw [htail, List.append_eq, List.cons_append, directive_bang] at ho
                dsimp only at ho
                cases z with
                | nil => simp at hz
                | cons b z =>
                    have hmem : (37 : UInt8) ∈ (ascii "%!!(MISSING)").tail := by
                      rw [ho, List.cons_append, List.tail_cons]
                      simp
                    exact absurd hmem (by decide)
              rcases hout with ⟨-, hout⟩ | ⟨⟨y', hy'⟩, hout⟩
              · rw [hout, ← List.append_nil (words.flatMap _)] at hsuffix
                rcases suffix_words (fun w hw => (hwords w hw).1) hsuffix with ⟨a', ha'⟩ | hnil
                · exact hbang a' ha'
                · simpa using hnil.length_le
              · rw [hout] at hsuffix
                rcases suffix_words (fun w hw => (hwords w hw).1) hsuffix with ⟨a', ha'⟩ | hlast
                · exact hbang a' ha'
                · have hnil : a = [] := by
                    have := hlast.length_le
                    simpa using this
                  apply shorter (y := y' ++ [37]) (by simp) hlt
                  rw [hnil] at htail
                  rw [List.append_assoc, List.singleton_append, hy']
                  exact htail.symm
      · rw [sprintf_cons hc] at heq
        cases z with
        | nil => simp at hz
        | cons b z =>
            obtain ⟨rfl, htail⟩ := List.cons.inj heq
            have hz' : 37 ∈ z := (List.mem_cons.mp hz).resolve_left (Ne.symm hc)
            apply shorter (y := z ++ [c]) (by simp [hz']) (Nat.lt_succ_self _)
            rw [htail, List.append_assoc, List.singleton_append]
            rfl

/-- A text without a percent sign never comes again in front of what follows it. -/
theorem ne_append_sprintf {w : List UInt8} (hw : 37 ∉ w) (hne : w ≠ []) (t : List UInt8) :
    t ≠ w ++ sprintf t := by
  induction hn : t.length using Nat.strong_induction_on generalizing t with
  | _ n ih =>
  subst hn
  intro heq
  have hlen := congrArg List.length heq
  rw [List.length_append] at hlen
  have hpos := List.length_pos_iff.mpr hne
  apply ih (sprintf t).length (by omega) (sprintf t) rfl
  conv_lhs => rw [heq, sprintf_append hw]

/-- A format without operands is its own text if and only if no directive is in it. -/
theorem sprintf_eq_self_iff (s : List UInt8) : sprintf s = s ↔ 37 ∉ s := by
  constructor
  · intro heq hmem
    obtain ⟨pre, t, rfl, hpre⟩ := List.eq_append_cons_of_mem hmem
    rw [sprintf_append hpre, sprintf_percent] at heq
    have heq := List.append_cancel_left heq
    have hbang {o : List UInt8} (ho : (directive t).1 = 37 :: 33 :: o) : False := by
      cases t with
      | nil =>
          have := congrArg List.length heq
          rw [ho] at this
          simp at this
      | cons c t =>
          have hfirst := heq
          rw [ho] at hfirst
          obtain ⟨rfl, -⟩ := List.cons.inj (List.cons.inj hfirst).2
          rw [directive_bang] at heq
          apply ne_append_sprintf (w := ascii "!(MISSING)") (by decide) (by decide) t
          exact (List.cons.inj (List.cons.inj heq).2).2.symm
    obtain ⟨-, words, -, ⟨hne, hout⟩ | ⟨⟨y, hy⟩, hout⟩⟩ := directive_spec t
    · cases words with
      | nil => exact hne rfl
      | cons word words => exact hbang (by rw [hout]; rfl)
    · cases words with
      | nil =>
          rw [hout] at heq
          apply sprintf_ne_append (z := y ++ [37]) (by simp) (directive t).2
          rw [List.append_assoc, List.singleton_append, hy]
          exact (List.cons.inj heq).2
      | cons word words => exact hbang (by rw [hout]; rfl)
  · intro h
    have happend := sprintf_append h []
    rwa [sprintf_nil, List.append_nil] at happend

/-- No colon is written that is not in the format. -/
theorem colon_mem_of_sprintf (s : List UInt8) (h : 58 ∈ sprintf s) : 58 ∈ s := by
  induction hn : s.length using Nat.strong_induction_on generalizing s with
  | _ n ih =>
  subst hn
  cases s with
  | nil => simp at h
  | cons c s =>
      by_cases hc : c = 37
      · subst hc
        rw [sprintf_percent] at h
        obtain ⟨hrest, words, hwords, hout⟩ := directive_spec s
        apply List.mem_cons_of_mem _
        rcases List.mem_append.mp h with h | h
        · have hmem : (58 : UInt8) ∈ words.flatMap fun word => 37 :: 33 :: word := by
            rcases hout with ⟨-, hout⟩ | ⟨-, hout⟩
            · exact hout ▸ h
            · rw [hout] at h
              simpa using h
          obtain ⟨word, hword, hin⟩ := List.mem_flatMap.mp hmem
          exact (hwords word hword).2 (by simpa using hin)
        · exact hrest.subset (ih _ (Nat.lt_succ_of_le hrest.length_le) _ h rfl)
      · rw [sprintf_cons hc, List.mem_cons] at h
        rcases h with h | h
        · exact h ▸ List.mem_cons_self
        · exact List.mem_cons_of_mem _ (ih _ (Nat.lt_succ_self _) _ h rfl)

end Traitor.Lib.Printf
