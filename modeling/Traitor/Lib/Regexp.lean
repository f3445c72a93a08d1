import Mathlib

namespace Traitor.Lib.Regexp

inductive Node
  | literal (c : Char)
  | anyNotNL
  | starNotNL
  | charClass (mem : Char → Bool)
  | beginText
  | endText
  | wordBoundary
  | noWordBoundary

def isWord (c : Char) : Bool := c.isAlphanum || c = '_'

def isSpace (c : Char) : Bool := c ∈ ['\t', '\n', '\x0c', '\r', ' ']

def atBoundary (prev next : Option Char) : Bool := prev.any isWord != next.any isWord

/-- Some of the text from a position on, behind a character or at the beginning, is a match. -/
def Matches : List Node → Option Char → List Char → Prop
  | [], _, _ => True
  | .literal c :: ns, _, s => ∃ t, s = c :: t ∧ Matches ns (some c) t
  | .anyNotNL :: ns, _, s => ∃ c t, s = c :: t ∧ c ≠ '\n' ∧ Matches ns (some c) t
  | .starNotNL :: ns, prev, s => ∃ u t, s = u ++ t ∧ '\n' ∉ u ∧ Matches ns (u.getLast?.or prev) t
  | .charClass mem :: ns, _, s => ∃ c t, s = c :: t ∧ mem c = true ∧ Matches ns (some c) t
  | .beginText :: ns, prev, s => prev = none ∧ Matches ns prev s
  | .endText :: ns, prev, s => s = [] ∧ Matches ns prev s
  | .wordBoundary :: ns, prev, s => atBoundary prev s.head? = true ∧ Matches ns prev s
  | .noWordBoundary :: ns, prev, s => atBoundary prev s.head? = false ∧ Matches ns prev s

def Match (ns : List Node) (s : List Char) : Prop := ∃ u t, s = u ++ t ∧ Matches ns u.getLast? t

def octalDigit (c : Char) : Option Nat := if '0' ≤ c ∧ c ≤ '7' then some (c.toNat - '0'.toNat) else none

def hexDigit (c : Char) : Option Nat :=
  if '0' ≤ c ∧ c ≤ '9' then some (c.toNat - '0'.toNat)
  else if 'a' ≤ c ∧ c ≤ 'f' then some (c.toNat - 'a'.toNat + 10)
  else if 'A' ≤ c ∧ c ≤ 'F' then some (c.toNat - 'A'.toNat + 10)
  else none

/-- The value of up to so many more octal digits, and how many they are. -/
def octal : Nat → Nat → List Char → Nat × Nat
  | n + 1, v, c :: s =>
      match octalDigit c with
      | none => (v, 0)
      | some d => ((octal n (v * 8 + d) s).1, (octal n (v * 8 + d) s).2 + 1)
  | _, v, _ => (v, 0)

def letters : List (Char × Node) :=
  [('A', .beginText), ('b', .wordBoundary), ('B', .noWordBoundary), ('z', .endText),
    ('d', .charClass Char.isDigit), ('D', .charClass fun c => !c.isDigit),
    ('s', .charClass isSpace), ('S', .charClass fun c => !isSpace c),
    ('w', .charClass isWord), ('W', .charClass fun c => !isWord c),
    ('a', .literal '\x07'), ('f', .literal '\x0c'), ('n', .literal '\n'), ('r', .literal '\r'),
    ('t', .literal '\t'), ('v', .literal '\x0b')]

def categories : List Char := ['C', 'L', 'M', 'N', 'P', 'S', 'Z']

section

variable (category : Char → Char → Bool)

/-- What a backslash and a character other than `Q` stand for, with the number of characters behind
them that belong to it. -/
def escape (c : Char) (s : List Char) : Option (Node × Nat) :=
  match letters.lookup c with
  | some n => some (n, 0)
  | none =>
      if c = 'p' ∨ c = 'P' then
        match s with
        | name :: _ =>
            if name ∈ categories then some (.charClass fun x => category name x == decide (c = 'p'), 1) else none
        | [] => none
      else if c = 'x' then
        match s with
        | a :: b :: _ =>
            match hexDigit a, hexDigit b with
            | some x, some y => some (.literal (Char.ofNat (x * 16 + y)), 2)
            | _, _ => none
        | _ => none
      else
        match octalDigit c with
        | some d =>
            let (v, k) := octal 2 d s
            -- one digit that is no zero would refer back to a group
            if c ≠ '0' ∧ k = 0 then none else some (.literal (Char.ofNat v), k)
        | none => if c.toNat < 128 ∧ ¬ c.isAlphanum then some (.literal c, 0) else none

/-- A sequence of literals, escapes, `.`, `.*`, `^` and `$`, with text between `\Q` and `\E` that stands
for itself. A parenthesis would have to be closed by one that is not escaped, which no sequence has. -/
def parse (quoted : Bool) : List Char → Option (List Node)
  | [] => some []
  | c :: s =>
      if quoted then
        if c = '\\' ∧ s.head? = some 'E' then parse false (s.drop 1)
        else (parse true s).map (.literal c :: ·)
      else if c = '\\' then
        match s with
        | [] => none
        | e :: s =>
            if e = 'Q' then parse true s
            else
              match escape category e s with
              | none => none
              | some (n, k) => (parse false (s.drop k)).map (n :: ·)
      else if c = '.' then
        if s.head? = some '*' then (parse false (s.drop 1)).map (.starNotNL :: ·)
        else (parse false s).map (.anyNotNL :: ·)
      else if c = '^' then (parse false s).map (.beginText :: ·)
      else if c = '$' then (parse false s).map (.endText :: ·)
      else if c ∈ ['+', '*', '?', '(', ')', '|', '[', ']', '{', '}'] then none
      else (parse false s).map (.literal c :: ·)
termination_by s => s.length
decreasing_by all_goals simp_wf <;> omega

end

section

variable {category : Char → Char → Bool} {quoted : Bool} {c e : Char} {s : List Char} {n : Node} {ns : List Node} {k : Nat}

@[simp] theorem parse_nil : parse category quoted [] = some [] := by
  rw [parse.eq_def]

theorem parse_close : parse category true ('\\' :: 'E' :: s) = parse category false s := by
  rw [parse.eq_def]
  simp

theorem parse_quoted (h : c = '\\' → s.head? ≠ some 'E') :
    parse category true (c :: s) = (parse category true s).map (.literal c :: ·) := by
  rw [parse.eq_def]
  simp only [if_true]
  exact if_neg fun hc => h hc.1 hc.2

theorem parse_quote : parse category false ('\\' :: 'Q' :: s) = parse category true s := by
  rw [parse.eq_def]
  simp

theorem parse_escape (he : e ≠ 'Q') :
    parse category false ('\\' :: e :: s) =
      match escape category e s with
      | none => none
      | some (n, k) => (parse category false (s.drop k)).map (n :: ·) := by
  rw [parse.eq_def]
  simp [he]

theorem parse_starNotNL :
    parse category false ('.' :: '*' :: s) = (parse category false s).map (.starNotNL :: ·) := by
  rw [parse.eq_def]
  simp

theorem parse_anyNotNL (h : s.head? ≠ some '*') :
    parse category false ('.' :: s) = (parse category false s).map (.anyNotNL :: ·) := by
  rw [parse.eq_def]
  simp [h]

theorem parse_open : parse category false ('(' :: s) = none := by
  rw [parse.eq_def]
  simp

theorem parse_begin : parse category false ('^' :: s) = (parse category false s).map (.beginText :: ·) := by
  rw [parse.eq_def]
  simp

theorem parse_end : parse category false ['$'] = some [.endText] := by
  rw [parse.eq_def]
  simp

theorem parse_literal
    (h : c ∉ ['\\', '.', '^', '$', '+', '*', '?', '(', ')', '|', '[', ']', '{', '}']) :
    parse category false (c :: s) = (parse category false s).map (.literal c :: ·) := by
  simp only [List.mem_cons, List.not_mem_nil, or_false, not_or] at h
  rw [parse.eq_def]
  simp [h]

def Node.isMark : Node → Bool
  | .beginText | .endText | .wordBoundary | .noWordBoundary => true
  | _ => false

def Node.takes : Node → Char → Bool
  | .literal c, x => x = c
  | .anyNotNL, x => x ≠ '\n'
  | .charClass mem, x => mem x
  | _, _ => false

def Node.isLiteral (c : Char) : Node → Bool
  | .literal x => x = c
  | _ => false

section

variable {prev prev' : Option Char} {x : Char}

/-- A regular expression that begins with a caret matches from the first character on. -/
theorem match_beginText : Match (.beginText :: ns) s ↔ Matches ns none s := by
  constructor
  · rintro ⟨u, t, rfl, hbegin, h⟩
    obtain rfl := List.getLast?_eq_none_iff.mp hbegin
    exact h
  · intro h
    exact ⟨[], s, rfl, rfl, h⟩

theorem matches_of_mark (hmark : n.isMark = true) (h : Matches (n :: ns) prev s) : Matches ns prev s := by
  cases n with
  | beginText | endText | wordBoundary | noWordBoundary => exact h.2
  | _ => cases hmark

theorem matches_one (hmark : n.isMark = false) (hstar : n ≠ .starNotNL) :
    Matches (n :: ns) prev s ↔ ∃ c t, s = c :: t ∧ n.takes c = true ∧ Matches ns (some c) t := by
  cases n with
  | literal c =>
      constructor
      · rintro ⟨t, rfl, h⟩
        exact ⟨c, t, rfl, by simp [Node.takes], h⟩
      · rintro ⟨x, t, rfl, hx, h⟩
        obtain rfl := of_decide_eq_true hx
        exact ⟨t, rfl, h⟩
  | anyNotNL =>
      simp only [Matches, Node.takes, ne_eq, decide_not, Bool.not_eq_true', decide_eq_false_iff_not]
  | charClass mem => exact Iff.rfl
  | starNotNL => exact absurd rfl hstar
  | _ => cases hmark

theorem matches_cons (hmark : n.isMark = false) (hstar : n ≠ .starNotNL) :
    Matches (n :: ns) prev (x :: s) ↔ n.takes x = true ∧ Matches ns (some x) s := by
  rw [matches_one hmark hstar]
  constructor
  · rintro ⟨c, t, heq, h⟩
    obtain ⟨rfl, rfl⟩ := List.cons.inj heq
    exact h
  · rintro h
    exact ⟨x, s, rfl, h⟩

/-- What follows does not see more of what is behind it than whether that is a word's. -/
theorem matches_congr (hword : prev.any isWord = prev'.any isWord) (hnone : prev = none ↔ prev' = none)
    (h : Matches ns prev s) : Matches ns prev' s := by
  induction ns generalizing prev prev' s with
  | nil => trivial
  | cons n ns ih =>
      cases n with
      | literal c => exact h
      | anyNotNL => exact h
      | charClass mem => exact h
      | starNotNL =>
          obtain ⟨u, t, rfl, hu, h⟩ := h
          refine ⟨u, t, rfl, hu, ih ?_ ?_ h⟩
          · cases u.getLast? with
            | none => exact hword
            | some c => rfl
          · cases u.getLast? with
            | none => exact hnone
            | some c => simp
      | beginText => exact ⟨hnone.mp h.1, ih hword hnone h.2⟩
      | endText => exact ⟨h.1, ih hword hnone h.2⟩
      | wordBoundary =>
          refine ⟨?_, ih hword hnone h.2⟩
          rw [atBoundary, ← hword]
          exact h.1
      | noWordBoundary =>
          refine ⟨?_, ih hword hnone h.2⟩
          rw [atBoundary, ← hword]
          exact h.1

/-- Every literal finds its character in the text. -/
theorem Matches.countP_le (h : Matches ns prev s) (c : Char) : ns.countP (Node.isLiteral c) ≤ s.count c := by
  induction ns generalizing prev s with
  | nil => exact Nat.zero_le _
  | cons n ns ih =>
      cases n with
      | literal x =>
          obtain ⟨t, rfl, h⟩ := h
          have ih := ih h
          rw [List.countP_cons, List.count_cons]
          by_cases hx : x = c
          · simp only [Node.isLiteral, hx, decide_true, if_true, beq_self_eq_true]
            omega
          · simp only [Node.isLiteral, hx, decide_false, Bool.false_eq_true, if_false]
            omega
      | anyNotNL =>
          obtain ⟨x, t, rfl, -, h⟩ := h
          exact Nat.le_trans (ih h) List.count_le_count_cons
      | charClass mem =>
          obtain ⟨x, t, rfl, -, h⟩ := h
          exact Nat.le_trans (ih h) List.count_le_count_cons
      | starNotNL =>
          obtain ⟨u, t, rfl, -, h⟩ := h
          rw [List.count_append]
          exact Nat.le_trans (ih h) (Nat.le_add_left _ _)
      | beginText => exact ih h.2
      | endText => exact ih h.2
      | wordBoundary => exact ih h.2
      | noWordBoundary => exact ih h.2

/-- No more newlines are in a text that is read to its end than there are nodes: a star takes none. -/
theorem Matches.newlines_le (h : Matches ns prev s) (hend : .endText ∈ ns) : s.count '\n' ≤ ns.length := by
  induction ns generalizing prev s with
  | nil => cases hend
  | cons n ns ih =>
      rw [List.length_cons]
      cases n with
      | literal x =>
          obtain ⟨t, rfl, h⟩ := h
          have ih := ih h (by simpa using hend)
          rw [List.count_cons]
          split <;> omega
      | anyNotNL =>
          obtain ⟨x, t, rfl, -, h⟩ := h
          have ih := ih h (by simpa using hend)
          rw [List.count_cons]
          split <;> omega
      | charClass mem =>
          obtain ⟨x, t, rfl, -, h⟩ := h
          have ih := ih h (by simpa using hend)
          rw [List.count_cons]
          split <;> omega
      | starNotNL =>
          obtain ⟨u, t, rfl, hu, h⟩ := h
          have ih := ih h (by simpa using hend)
          rw [List.count_append, List.count_eq_zero.mpr hu]
          omega
      | beginText => exact Nat.le_succ_of_le (ih h.2 (by simpa using hend))
      | endText =>
          obtain ⟨rfl, -⟩ := h
          exact Nat.zero_le _
      | wordBoundary => exact Nat.le_succ_of_le (ih h.2 (by simpa using hend))
      | noWordBoundary => exact Nat.le_succ_of_le (ih h.2 (by simpa using hend))

end

theorem isAlphanum_of_digit (hlow : '0' ≤ c) (hhigh : c ≤ '9') : c.isAlphanum = true := by
  have hdigit : c.isDigit = true := by
    simp only [Char.isDigit, Bool.and_eq_true, decide_eq_true_iff]
    exact ⟨hlow, hhigh⟩
  simp [Char.isAlphanum, hdigit]

theorem isAlphanum_of_lower (hlow : 'a' ≤ c) (hhigh : c ≤ 'z') : c.isAlphanum = true := by
  have hlower : c.isLower = true := by
    simp only [Char.isLower, Bool.and_eq_true, decide_eq_true_iff]
    exact ⟨hlow, hhigh⟩
  simp [Char.isAlphanum, Char.isAlpha, hlower]

theorem isAlphanum_of_upper (hlow : 'A' ≤ c) (hhigh : c ≤ 'Z') : c.isAlphanum = true := by
  have hupper : c.isUpper = true := by
    simp only [Char.isUpper, decide_eq_true_iff]
    exact ⟨hlow, hhigh⟩
  simp [Char.isAlphanum, Char.isAlpha, hupper]

theorem isAlphanum_of_octalDigit {d : Nat} (h : octalDigit c = some d) : c.isAlphanum = true := by
  rw [octalDigit] at h
  split at h
  · rename_i hc
    exact isAlphanum_of_digit hc.1 (Char.le_trans hc.2 (by decide))
  · cases h

theorem isAlphanum_of_hexDigit {d : Nat} (h : hexDigit c = some d) : c.isAlphanum = true := by
  rw [hexDigit] at h
  split at h
  · rename_i hc
    exact isAlphanum_of_digit hc.1 hc.2
  · split at h
    · rename_i hc
      exact isAlphanum_of_lower hc.1 (Char.le_trans hc.2 (by decide))
    · split at h
      · rename_i hc
        exact isAlphanum_of_upper hc.1 (Char.le_trans hc.2 (by decide))
      · cases h

theorem octal_spec (n v : Nat) (s : List Char) :
    (octal n v s).2 ≤ s.length ∧ (∀ x ∈ s.take (octal n v s).2, x.isAlphanum = true) ∧
      ((octal n v s).2 = 0 → (octal n v s).1 = v) := by
  induction n generalizing v s with
  | zero => simp [octal]
  | succ n ih =>
      cases s with
      | nil => simp [octal]
      | cons c s =>
          rw [octal]
          cases hc : octalDigit c with
          | none => simp
          | some d =>
              obtain ⟨hlength, hdigits, -⟩ := ih (v * 8 + d) s
              refine ⟨Nat.succ_le_succ hlength, ?_, fun h => absurd h (Nat.succ_ne_zero _)⟩
              intro x hx
              rw [List.take_succ_cons] at hx
              rcases List.mem_cons.mp hx with rfl | hx
              · exact isAlphanum_of_octalDigit hc
              · exact hdigits x hx

/-- What a letter or a digit stands for behind a backslash: never just for itself. -/
structure Stray (e : Char) (s : List Char) (n : Node) (k : Nat) : Prop where
  length : k ≤ s.length
  alphanum : ∀ x ∈ s.take k, x.isAlphanum = true
  one : n ≠ .starNotNL
  other : n.isMark = true ∨ 0 < k ∨ n.takes e = false ∨ ∃ x ≠ e, n.takes x = true ∧ isWord x = true

theorem stray_letter (h : (e, n) ∈ letters) (s : List Char) : Stray e s n 0 := by
  have hother : n ≠ .starNotNL ∧
      (n.isMark = true ∨ n.takes e = false ∨ ∃ x ≠ e, n.takes x = true ∧ isWord x = true) := by
    simp only [letters, List.mem_cons, List.not_mem_nil, or_false, Prod.mk.injEq] at h
    rcases h with ⟨rfl, rfl⟩ | ⟨rfl, rfl⟩ | ⟨rfl, rfl⟩ | ⟨rfl, rfl⟩ | ⟨rfl, rfl⟩ | ⟨rfl, rfl⟩ | ⟨rfl, rfl⟩ |
      ⟨rfl, rfl⟩ | ⟨rfl, rfl⟩ | ⟨rfl, rfl⟩ | ⟨rfl, rfl⟩ | ⟨rfl, rfl⟩ | ⟨rfl, rfl⟩ | ⟨rfl, rfl⟩ | ⟨rfl, rfl⟩ |
      ⟨rfl, rfl⟩
    case inr.inr.inr.inr.inr.inl => exact ⟨nofun, .inr (.inr ⟨'E', by decide, rfl, rfl⟩)⟩
    case inr.inr.inr.inr.inr.inr.inr.inl => exact ⟨nofun, .inr (.inr ⟨'E', by decide, rfl, rfl⟩)⟩
    case inr.inr.inr.inr.inr.inr.inr.inr.inl => exact ⟨nofun, .inr (.inr ⟨'E', by decide, rfl, rfl⟩)⟩
    all_goals first | exact ⟨nofun, .inl rfl⟩ | exact ⟨nofun, .inr (.inl rfl)⟩
  refine ⟨Nat.zero_le _, by simp, hother.1, ?_⟩
  rcases hother.2 with hmark | htakes | hclass
  · exact .inl hmark
  · exact .inr (.inr (.inl htakes))
  · exact .inr (.inr (.inr hclass))

theorem escape_of_alphanum (he : e.isAlphanum = true) (h : escape category e s = some (n, k)) : Stray e s n k := by
  rw [escape.eq_def] at h
  cases hletter : letters.lookup e with
  | some m =>
      rw [hletter] at h
      obtain ⟨rfl, rfl⟩ := Prod.mk.inj (Option.some.inj h)
      obtain ⟨l₁, l₂, heq, -⟩ := List.lookup_eq_some_iff.mp hletter
      exact stray_letter (by rw [heq]; simp) s
  | none =>
      rw [hletter] at h
      dsimp only at h
      split at h
      · cases s with
        | nil => cases h
        | cons name s =>
            dsimp only at h
            split at h
            · rename_i hname
              obtain ⟨rfl, rfl⟩ := Prod.mk.inj (Option.some.inj h)
              refine ⟨by simp, ?_, nofun, .inr (.inl Nat.one_pos)⟩
              simp only [categories, List.mem_cons, List.not_mem_nil, or_false] at hname
              rcases hname with rfl | rfl | rfl | rfl | rfl | rfl | rfl <;> simp
            · cases h
      · split at h
        · split at h
          · rename_i a b t
            split at h
            · rename_i x y hx hy
              obtain ⟨rfl, rfl⟩ := Prod.mk.inj (Option.some.inj h)
              refine ⟨by simp, ?_, nofun, .inr (.inl Nat.two_pos)⟩
              simp [isAlphanum_of_hexDigit hx, isAlphanum_of_hexDigit hy]
            · cases h
          · cases h
        · cases hd : octalDigit e with
          | some d =>
              rw [hd] at h
              obtain ⟨hlength, hdigits, hzero⟩ := octal_spec 2 d s
              dsimp only at h
              split at h
              · cases h
              · rename_i hback
                obtain ⟨rfl, rfl⟩ := Prod.mk.inj (Option.some.inj h)
                refine ⟨hlength, hdigits, nofun, ?_⟩
                by_cases hk : (octal 2 d s).2 = 0
                · obtain rfl : e = '0' := by
                    by_contra hne
                    exact hback ⟨hne, hk⟩
                  obtain rfl : 0 = d := Option.some.inj hd
                  right
                  right
                  left
                  rw [hzero hk]
                  rfl
                · exact .inr (.inl (Nat.pos_of_ne_zero hk))
          | none =>
              rw [hd] at h
              dsimp only at h
              rw [if_neg fun hc => hc.2 he] at h
              cases h

theorem escape_of_not_alphanum (he : e.isAlphanum = false) :
    escape category e s = if e.toNat < 128 then some (.literal e, 0) else none := by
  have hletter : letters.lookup e = none := by
    rw [List.lookup_eq_none_iff]
    intro a ha
    have halpha : ∀ a ∈ letters, a.1.isAlphanum = true := by decide
    simp only [bne_iff_ne, ne_eq]
    rintro rfl
    rw [halpha a ha] at he
    cases he
  have hname : ¬ (e = 'p' ∨ e = 'P') := by
    rintro (rfl | rfl) <;> cases he
  have hhex : e ≠ 'x' := by
    rintro rfl
    cases he
  have hoctal : octalDigit e = none := by
    cases hd : octalDigit e with
    | none => rfl
    | some d =>
        rw [isAlphanum_of_octalDigit hd] at he
        cases he
  rw [escape.eq_def, hletter]
  simp only [if_neg hname, if_neg hhex, hoctal, he]
  simp

theorem count_eq_zero_of_alphanum (h : ∀ x ∈ s, x.isAlphanum = true) : s.count '$' = 0 := by
  rw [List.count_eq_zero]
  intro hmem
  cases h '$' hmem

/-- What a backslash and a character stand for is a dollar sign if that is in it. -/
theorem escape_count (h : escape category e s = some (n, k)) :
    (e :: s).count '$' ≤ (if n.isLiteral '$' then 1 else 0) + (s.drop k).count '$' := by
  rw [List.count_cons]
  cases he : e.isAlphanum with
  | true =>
      have hstray := escape_of_alphanum he h
      have htake := count_eq_zero_of_alphanum hstray.alphanum
      have hsplit : s.count '$' = (s.take k).count '$' + (s.drop k).count '$' := by
        rw [← List.count_append, List.take_append_drop]
      have hne : (e == '$') = false := by
        rw [beq_eq_false_iff_ne]
        rintro rfl
        cases he
      rw [hne]
      simp only [Bool.false_eq_true, if_false]
      omega
  | false =>
      rw [escape_of_not_alphanum he] at h
      split at h
      · obtain ⟨rfl, rfl⟩ := Prod.mk.inj (Option.some.inj h)
        simp only [Node.isLiteral, beq_iff_eq, decide_eq_true_eq, List.drop_zero]
        omega
      · cases h

/-- What is read in one step, with a dollar sign only where that is the end or a literal. -/
inductive Step (category : Char → Char → Bool) (c : Char) (s : List Char) (ns : List Node) : Prop
  | skip (quoted : Bool) (k : Nat) : parse category quoted (s.drop k) = some ns →
      (c :: s).count '$' = (s.drop k).count '$' → Step category c s ns
  | part (quoted : Bool) (k : Nat) (n : Node) (ns' : List Node) : parse category quoted (s.drop k) = some ns' →
      n :: ns' = ns →
      n = .endText ∨ (c :: s).count '$' ≤ (if n.isLiteral '$' then 1 else 0) + (s.drop k).count '$' →
      Step category c s ns

theorem parse_step (h : parse category quoted (c :: s) = some ns) : Step category c s ns := by
  have hone {quoted' : Bool} {m : Node} (ht : (parse category quoted' s).map (m :: ·) = some ns)
      (hm : m = .endText ∨ (c :: s).count '$' ≤ (if m.isLiteral '$' then 1 else 0) + s.count '$') :
      Step category c s ns := by
    obtain ⟨ns', hns, heq⟩ := Option.map_eq_some_iff.mp ht
    exact .part quoted' 0 m ns' hns heq hm
  have hliteral : (c :: s).count '$' ≤ (if (Node.literal c).isLiteral '$' then 1 else 0) + s.count '$' := by
    rw [List.count_cons, Nat.add_comm]
    simp [Node.isLiteral]
  have hother (m : Node) (hc : c ≠ '$') : (c :: s).count '$' ≤ (if m.isLiteral '$' then 1 else 0) + s.count '$' := by
    rw [List.count_cons_of_ne hc]
    exact Nat.le_add_left _ _
  have hdrop {x : Char} (hx : s.head? = some x) (hne : x ≠ '$') : s.count '$' = (s.drop 1).count '$' := by
    cases s with
    | nil => cases hx
    | cons y s =>
        obtain rfl := Option.some.inj hx
        exact List.count_cons_of_ne hne
  rw [parse.eq_def] at h
  dsimp only at h
  split at h
  · split at h
    · rename_i hclose
      obtain ⟨rfl, hhead⟩ := hclose
      apply Step.skip false 1 h
      rw [List.count_cons_of_ne (by decide), hdrop hhead (by decide)]
    · exact hone h (.inr hliteral)
  · split at h
    · rename_i hback
      subst hback
      cases s with
      | nil => cases h
      | cons e s =>
          dsimp only at h
          split at h
          · rename_i hq
            subst hq
            exact .skip true 1 h (by simp)
          · cases hescape : escape category e s with
            | none =>
                rw [hescape] at h
                cases h
            | some r =>
                obtain ⟨n, k⟩ := r
                rw [hescape] at h
                obtain ⟨ns', hns, heq⟩ := Option.map_eq_some_iff.mp h
                refine .part false (k + 1) n ns' hns heq (.inr ?_)
                rw [List.count_cons_of_ne (by decide), List.drop_succ_cons]
                exact escape_count hescape
    · split at h
      · rename_i hdot
        subst hdot
        split at h
        · rename_i hstar
          obtain ⟨ns', hns, heq⟩ := Option.map_eq_some_iff.mp h
          refine .part false 1 _ ns' hns heq (.inr ?_)
          rw [List.count_cons_of_ne (by decide), hdrop hstar (by decide)]
          exact Nat.le_add_left _ _
        · exact hone h (.inr (hother _ (by decide)))
      · split at h
        · rename_i hbegin
          subst hbegin
          exact hone h (.inr (hother _ (by decide)))
        · split at h
          · exact hone h (.inl rfl)
          · split at h
            · cases h
            · exact hone h (.inr hliteral)

/-- A dollar sign is the end of the text or a literal. -/
theorem parse_count (h : parse category quoted s = some ns) (hend : .endText ∉ ns) :
    s.count '$' ≤ ns.countP (Node.isLiteral '$') := by
  induction hlen : s.length using Nat.strongRecOn generalizing quoted s ns with
  | _ len ih =>
      cases s with
      | nil => exact Nat.zero_le _
      | cons c s =>
          have hlength (k : Nat) : (s.drop k).length < len := by
            rw [← hlen, List.length_drop, List.length_cons]
            omega
          cases parse_step h with
          | skip quoted' k hns hcount =>
              rw [hcount]
              exact ih _ (hlength k) hns hend rfl
          | part quoted' k n ns' hns heq hn =>
              subst heq
              have hle := ih _ (hlength k) hns (fun hm => hend (List.mem_cons_of_mem _ hm)) rfl
              rcases hn with rfl | hn
              · exact absurd List.mem_cons_self hend
              · rw [List.countP_cons]
                omega

end

end Traitor.Lib.Regexp
