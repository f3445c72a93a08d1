import Traitor.Basic
import Traitor.Lib.Regexp

namespace Traitor.Wildcard

open Lib.Regexp

def byte (c : Char) : UInt8 := UInt8.ofNat c.toNat

def replaceMap : List (UInt8 × Bytes) :=
  [(byte '+', bytes "\\+"), (byte ')', bytes "\\)"), (byte '$', bytes "\\$"), (byte '.', bytes "\\."),
    (byte '{', bytes "\\\x7b"), (byte '}', bytes "\\\x7d"), (byte '|', bytes "\\|"), (byte '*', bytes ".*"),
    (byte '?', bytes ".")]

/-- What a caret becomes behind these bytes, the last of them first. -/
def caret : Bytes → Bytes
  | [] => bytes "\\^"
  | [b] => if b = byte '[' then bytes "^" else bytes "\\^"
  | b :: b' :: _ => if b = byte '[' ∧ b' ≠ byte '\\' then bytes "^" else bytes "\\^"

/-- The loop over the source, with the bytes that it is past, the last of them first. None is an escape
at the end. -/
def regexSrc (past : Bytes) : Bytes → Option Bytes
  | [] => some []
  | ch :: src =>
      if ch = byte '\\' then
        match src with
        | [] => none
        | next :: src => (regexSrc (next :: ch :: past) src).map fun re => ch :: next :: re
      else if ch = byte '^' then (regexSrc (ch :: past) src).map (caret past ++ ·)
      else
        match replaceMap.lookup ch with
        | some escaped => (regexSrc (ch :: past) src).map (escaped ++ ·)
        | none => (regexSrc (ch :: past) src).map (ch :: ·)

def encode (s : List Char) : Bytes := s.flatMap String.utf8EncodeChar

def decode (s : Bytes) : Option (List Char) := (ByteArray.mk s.toArray).utf8Decode?.map Array.toList

structure Pattern where
  exp : List Node

def compilePattern (category : Char → Char → Bool) (src : Bytes) : Option Pattern :=
  (regexSrc [] src).bind fun re =>
    (decode (byte '^' :: re ++ [byte '$'])).bind fun re => (parse category false re).map Pattern.mk

def Pattern.IsMatch (p : Pattern) (s : List Char) : Prop := Match p.exp s

inductive Sign
  | star
  | any
  | char (c : Char)
  | escaped (c : Char)
deriving DecidableEq

/-- None is a pattern that ends with a backslash that is not escaped. -/
def signs : List Char → Option (List Sign)
  | [] => some []
  | c :: s =>
      if c = '\\' then
        match s with
        | [] => none
        | e :: s => (signs s).map (.escaped e :: ·)
      else if c = '*' then (signs s).map (.star :: ·)
      else if c = '?' then (signs s).map (.any :: ·)
      else (signs s).map (.char c :: ·)

def Glob (free : Char → Prop) : List Sign → List Char → Prop
  | [], s => s = []
  | .star :: g, s => ∃ u t, s = u ++ t ∧ (∀ c ∈ u, free c) ∧ Glob free g t
  | .any :: g, s => ∃ c t, s = c :: t ∧ free c ∧ Glob free g t
  | .char c :: g, s => ∃ t, s = c :: t ∧ Glob free g t
  | .escaped c :: g, s => ∃ t, s = c :: t ∧ Glob free g t

section

variable {c d : Char} {past : Bytes} {s : List Char}

theorem byte_inj (hc : c.toNat < 128) (hd : d.toNat < 128) : byte c = byte d ↔ c = d := by
  constructor
  · intro h
    have hnat := congrArg UInt8.toNat h
    rw [byte, byte, UInt8.toNat_ofNat_of_lt' (show _ < 256 by omega),
      UInt8.toNat_ofNat_of_lt' (show _ < 256 by omega)] at hnat
    exact Char.toNat_inj.mp hnat
  · rintro rfl
    rfl

theorem encode_cons (c : Char) (s : List Char) : encode (c :: s) = String.utf8EncodeChar c ++ encode s :=
  List.flatMap_cons

theorem encode_append (s t : List Char) : encode (s ++ t) = encode s ++ encode t := List.flatMap_append

theorem decode_encode (s : List Char) : decode (encode s) = some s := by
  have harray : ByteArray.mk (encode s).toArray = s.utf8Encode := by
    apply ByteArray.ext
    rw [List.utf8Encode, List.data_toByteArray]
    rfl
  rw [decode, harray, List.utf8Decode?_utf8Encode]
  rfl

theorem utf8EncodeChar_ascii (hc : c.toNat < 128) : String.utf8EncodeChar c = [byte c] := by
  have hle : c.val.toNat ≤ 0x7f := Nat.le_of_lt_succ hc
  rw [String.utf8EncodeChar]
  exact if_pos hle

theorem encode_ascii (hc : c.toNat < 128) (s : List Char) : encode (c :: s) = byte c :: encode s := by
  rw [encode_cons, utf8EncodeChar_ascii hc]
  rfl

/-- The bytes of a character that is not ASCII are not ASCII either. -/
theorem le_of_mem_utf8EncodeChar (hc : 128 ≤ c.toNat) {b : UInt8} (hb : b ∈ String.utf8EncodeChar c) : 128 ≤ b.toNat := by
  have hv : ¬ c.val.toNat ≤ 0x7f := Nat.not_le.mpr hc
  have hbyte (x m base : Nat) (hm : 0 < m) (hbase : 128 ≤ base) (hle : m + base ≤ 256) :
      128 ≤ (UInt8.ofNat (x % m + base)).toNat := by
    have hlt := Nat.mod_lt x hm
    rw [UInt8.toNat_ofNat_of_lt' (show _ < 256 by omega)]
    omega
  simp only [String.utf8EncodeChar, if_neg hv] at hb
  split_ifs at hb <;> simp only [List.mem_cons, List.not_mem_nil, or_false] at hb
  · rcases hb with rfl | rfl <;> apply hbyte <;> decide
  · rcases hb with rfl | rfl | rfl <;> apply hbyte <;> decide
  · rcases hb with rfl | rfl | rfl | rfl <;> apply hbyte <;> decide

def Sign.regex : Sign → List Char
  | .star => ['.', '*']
  | .any => ['.']
  | .char c => if c ∈ ['+', ')', '$', '.', '{', '}', '|', '^'] then ['\\', c] else [c]
  | .escaped c => ['\\', c]

def regex (g : List Sign) : List Char := g.flatMap Sign.regex

theorem caret_eq (h : ∀ b ∈ past, b ≠ byte '[') : caret past = bytes "\\^" := by
  rcases past with _ | ⟨b, _ | ⟨b', past⟩⟩
  · rfl
  · exact if_neg (h b (by simp))
  · exact if_neg fun hb => h b (by simp) hb.1

/-- A byte that is not ASCII is kept. -/
theorem regexSrc_high {bs : Bytes} (hbs : ∀ b ∈ bs, 128 ≤ b.toNat) (past src : Bytes) :
    regexSrc past (bs ++ src) = (regexSrc (bs.reverse ++ past) src).map (bs ++ ·) := by
  induction bs generalizing past with
  | nil => simp
  | cons b bs ih =>
      have hb := hbs b (by simp)
      have hne (c : Char) (hc : c.toNat < 128) : b ≠ byte c := by
        rintro rfl
        rw [byte, UInt8.toNat_ofNat_of_lt' (show _ < 256 by omega)] at hb
        omega
      have hlookup : replaceMap.lookup b = none := by
        rw [List.lookup_eq_none_iff]
        simp only [replaceMap, List.mem_cons, List.not_mem_nil, or_false, bne_iff_ne, ne_eq]
        rintro a (rfl | rfl | rfl | rfl | rfl | rfl | rfl | rfl | rfl) <;> exact hne _ (by decide)
      rw [List.cons_append, regexSrc.eq_def]
      simp only [if_neg (hne '\\' (by decide)), if_neg (hne '^' (by decide)), hlookup]
      rw [ih (fun x hx => hbs x (by simp [hx])), Option.map_map, List.reverse_cons, List.append_assoc]
      rfl

theorem regexSrc_escaped (past : Bytes) (next : UInt8) (src : Bytes) :
    regexSrc past (byte '\\' :: next :: src) =
      (regexSrc (next :: byte '\\' :: past) src).map fun re => byte '\\' :: next :: re := by
  rw [regexSrc.eq_def]
  simp

theorem regexSrc_ascii (hc : c.toNat < 128) (hne : c ≠ '\\') (hpast : ∀ b ∈ past, b ≠ byte '[') (src : Bytes) :
    regexSrc past (byte c :: src) = (regexSrc (byte c :: past) src).map
      (encode (if c = '*' then ['.', '*'] else if c = '?' then ['.'] else (Sign.char c).regex) ++ ·) := by
  by_cases hmem : c ∈ ['+', ')', '$', '.', '{', '}', '|', '*', '?']
  · simp only [List.mem_cons, List.not_mem_nil, or_false] at hmem
    rcases hmem with rfl | rfl | rfl | rfl | rfl | rfl | rfl | rfl | rfl <;> rw [regexSrc.eq_def] <;> rfl
  · simp only [List.mem_cons, List.not_mem_nil, or_false, not_or] at hmem
    obtain ⟨hplus, hclose, hdollar, hdot, hleft, hright, hbar, hstar, hany⟩ := hmem
    have hbyte (d : Char) (hd : d.toNat < 128) (hcd : c ≠ d) : byte c ≠ byte d := mt (byte_inj hc hd).mp hcd
    rw [regexSrc.eq_def]
    simp only [if_neg (hbyte '\\' (by decide) hne), if_neg hstar, if_neg hany]
    by_cases hcaret : c = '^'
    · subst hcaret
      rw [if_pos rfl, caret_eq hpast]
      rfl
    · have hlookup : replaceMap.lookup (byte c) = none := by
        rw [List.lookup_eq_none_iff]
        simp only [replaceMap, List.mem_cons, List.not_mem_nil, or_false, bne_iff_ne, ne_eq]
        rintro a (rfl | rfl | rfl | rfl | rfl | rfl | rfl | rfl | rfl) <;> exact hbyte _ (by decide) ‹_›
      have hself : encode (Sign.char c).regex = [byte c] := by
        rw [Sign.regex, if_neg (by simp [*]), encode_ascii hc]
        rfl
      rw [if_neg (hbyte '^' (by decide) hcaret), hlookup, hself]
      rfl

theorem ne_open_of_mem (hc : c ≠ '[') {b : UInt8} (hb : b ∈ String.utf8EncodeChar c) : b ≠ byte '[' := by
  by_cases hascii : c.toNat < 128
  · rw [utf8EncodeChar_ascii hascii, List.mem_singleton] at hb
    rw [hb]
    exact mt (byte_inj hascii (by decide)).mp hc
  · have hle := le_of_mem_utf8EncodeChar (Nat.le_of_not_lt hascii) hb
    rintro rfl
    exact absurd hle (by decide)

/-- A character that is no backslash, behind bytes without an opening bracket. -/
theorem regexSrc_char (hne : c ≠ '\\') (hpast : ∀ b ∈ past, b ≠ byte '[') (src : Bytes) :
    regexSrc past (String.utf8EncodeChar c ++ src) = (regexSrc ((String.utf8EncodeChar c).reverse ++ past) src).map
      (encode (if c = '*' then ['.', '*'] else if c = '?' then ['.'] else (Sign.char c).regex) ++ ·) := by
  by_cases hc : c.toNat < 128
  · rw [utf8EncodeChar_ascii hc]
    exact regexSrc_ascii hc hne hpast src
  · have hother (d : Char) (hd : d.toNat < 128) : c ≠ d := by
      rintro rfl
      exact hc hd
    have hself : (Sign.char c).regex = [c] := by
      rw [Sign.regex, if_neg]
      simp only [List.mem_cons, List.not_mem_nil, or_false, not_or]
      refine ⟨?_, ?_, ?_, ?_, ?_, ?_, ?_, ?_⟩ <;> exact hother _ (by decide)
    rw [regexSrc_high fun b hb => le_of_mem_utf8EncodeChar (Nat.le_of_not_lt hc) hb,
      if_neg (hother '*' (by decide)), if_neg (hother '?' (by decide)), hself, encode_cons]
    simp [encode]

theorem signs_escaped (e : Char) (s : List Char) :
    signs ('\\' :: e :: s) = (signs s).map (.escaped e :: ·) := by
  rw [signs.eq_def]
  simp

def sign (c : Char) : Sign := if c = '*' then .star else if c = '?' then .any else .char c

theorem signs_cons (hne : c ≠ '\\') (s : List Char) : signs (c :: s) = (signs s).map (sign c :: ·) := by
  rw [signs.eq_def, sign]
  simp only [if_neg hne]
  split_ifs <;> rfl

theorem sign_regex (c : Char) :
    (sign c).regex = if c = '*' then ['.', '*'] else if c = '?' then ['.'] else (Sign.char c).regex := by
  rw [sign]
  split_ifs <;> rfl

/-- The loop writes the regular expression of the pattern. -/
theorem regexSrc_encode {g : List Sign} (hg : signs s = some g) (hopen : '[' ∉ s) (hpast : ∀ b ∈ past, b ≠ byte '[') :
    regexSrc past (encode s) = some (encode (regex g)) := by
  induction hlen : s.length using Nat.strongRecOn generalizing s g past with
  | _ len ih =>
      rcases s with _ | ⟨c, s⟩
      · obtain rfl : [] = g := Option.some.inj hg
        rfl
      · have hcopen : c ≠ '[' := fun h => hopen (by simp [h])
        have hsopen : '[' ∉ s := fun h => hopen (by simp [h])
        by_cases hc : c = '\\'
        · subst hc
          rcases s with _ | ⟨e, s⟩
          · cases hg
          · rw [signs_escaped] at hg
            obtain ⟨g, hrest, rfl⟩ := Option.map_eq_some_iff.mp hg
            have heopen : e ≠ '[' := fun h => hsopen (by simp [h])
            have hsplit : ∃ b bs, String.utf8EncodeChar e = b :: bs ∧ ∀ b ∈ bs, 128 ≤ b.toNat := by
              by_cases hascii : e.toNat < 128
              · exact ⟨byte e, [], utf8EncodeChar_ascii hascii, by simp⟩
              · cases hbytes : String.utf8EncodeChar e with
                | nil => exact absurd hbytes (by simp [String.utf8EncodeChar]; split_ifs <;> simp)
                | cons b bs =>
                    refine ⟨b, bs, rfl, fun x hx => ?_⟩
                    exact le_of_mem_utf8EncodeChar (Nat.le_of_not_lt hascii) (by simp [hbytes, hx])
            obtain ⟨b, bs, hbytes, hhigh⟩ := hsplit
            have hpast' : ∀ x ∈ bs.reverse ++ b :: byte '\\' :: past, x ≠ byte '[' := by
              intro x hx
              simp only [List.mem_append, List.mem_reverse, List.mem_cons] at hx
              rcases hx with hx | rfl | rfl | hx
              · exact ne_open_of_mem heopen (by simp [hbytes, hx])
              · exact ne_open_of_mem heopen (by simp [hbytes])
              · decide
              · exact hpast x hx
            have hnext := ih s.length (by rw [← hlen, List.length_cons, List.length_cons]; omega) hrest (fun h => hsopen (by simp [h])) hpast' rfl
            rw [encode_ascii (by decide), encode_cons, hbytes, List.cons_append, regexSrc_escaped,
              regexSrc_high hhigh, hnext]
            simp only [Option.map_some, regex, List.flatMap_cons, Sign.regex, encode_append]
            rw [encode_ascii (by decide), encode_cons, hbytes]
            simp [encode]
        · rw [signs_cons hc] at hg
          obtain ⟨g, hrest, rfl⟩ := Option.map_eq_some_iff.mp hg
          have hpast' : ∀ x ∈ (String.utf8EncodeChar c).reverse ++ past, x ≠ byte '[' := by
            intro x hx
            rcases List.mem_append.mp hx with hx | hx
            · exact ne_open_of_mem hcopen (List.mem_reverse.mp hx)
            · exact hpast x hx
          have hnext := ih s.length (by rw [← hlen]; exact Nat.lt_succ_self _) hrest hsopen hpast' rfl
          rw [encode_cons, regexSrc_char hc hpast, hnext, ← sign_regex, Option.map_some, ← encode_append]
          rfl

/-- What is compiled of a pattern without an opening bracket. -/
theorem compilePattern_encode (category : Char → Char → Bool) {g : List Sign} (hg : signs s = some g) (hopen : '[' ∉ s) :
    compilePattern category (encode s) = (parse category false ('^' :: (regex g ++ ['$']))).map Pattern.mk := by
  have hsource : byte '^' :: encode (regex g) ++ [byte '$'] = encode ('^' :: (regex g ++ ['$'])) := by
    rw [encode_ascii (by decide), encode_append]
    rfl
  rw [compilePattern, regexSrc_encode hg hopen (by simp), Option.bind_some, hsource, decode_encode, Option.bind_some]

end

end Traitor.Wildcard
