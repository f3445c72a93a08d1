import Traitor.Rewrite
import Traitor.Survival

namespace Traitor.Codec

open Lib.Strconv Protocol Traitor.Parser

def AtEnd (err : Error) : Prop := err = .eof ∨ err = .unexpectedEOF

def Breaks (state : ReadState) (input : Bytes) : Prop :=
  ∃ err, AtEnd err ∧ parse0 state input = [.error err]

theorem readBytes_none {delim : UInt8} {input : Bytes} (h : delim ∉ input) :
    readBytes delim input = none := by
  induction input with
  | nil => rfl
  | cons b input ih =>
      rw [List.mem_cons, not_or] at h
      rw [readBytes, if_neg (Ne.symm h.1), ih h.2, Option.map_none]

theorem breaks_noNewline {input : Bytes} (h : (10 : UInt8) ∉ input) {state : ReadState}
    (hs : state.bulkLen = 0) : Breaks state input := by
  refine ⟨.eof, .inl rfl, parse0_ioErr ?_⟩
  rw [readLine, if_pos hs, readBytes_none h]

/-- Only the last byte of a line ends it. -/
theorem newline_not_mem_take {line : Bytes} (h : (10 : UInt8) ∉ line) {n : Nat}
    (hn : n < (line ++ crlf).length) : (10 : UInt8) ∉ (line ++ crlf).take n := by
  have hcut : (line ++ crlf).take n = (line ++ [13]).take n := by
    have hlen : n ≤ (line ++ [13]).length := by
      simp only [List.length_append, crlf, List.length_cons, List.length_nil] at hn ⊢
      omega
    have htake : ((line ++ [13]) ++ [10]).take n = (line ++ [13]).take n :=
      List.take_append_of_le_length hlen
    rw [← htake, List.append_assoc]
    rfl
  rw [hcut]
  intro hmem
  have hmem := List.mem_of_mem_take hmem
  simp [h] at hmem

theorem breaks_line {line : Bytes} (h : (10 : UInt8) ∉ line) {n : Nat}
    (hn : n < (line ++ crlf).length) {state : ReadState} (hs : state.bulkLen = 0) :
    Breaks state ((line ++ crlf).take n) :=
  breaks_noNewline (newline_not_mem_take h hn) hs

theorem breaks_body {count : Nat} {args : List Bytes} {arg : Bytes} (hlen : arg.length + 2 < 2 ^ 63)
    {n : Nat} (hn : n < (arg ++ crlf).length) :
    Breaks (reading count args arg.length) ((arg ++ crlf).take n) := by
  by_cases hnil : arg = []
  · subst hnil
    exact breaks_line (by simp) hn rfl
  · have hpos : 0 < arg.length := List.length_pos_iff.mpr hnil
    have hshort : ((arg ++ crlf).take n).length < bodyLen (reading count args arg.length) := by
      simp only [List.length_append, crlf, List.length_cons, List.length_nil] at hn
      simp only [List.length_take, bodyLen, reading, Bool.false_eq_true, if_false]
      omega
    have hread (input : Bytes) : readLine input (reading count args arg.length) =
        if input = [] then .ioErr .eof
        else if input.length < bodyLen (reading count args arg.length) then .ioErr .unexpectedEOF
        else .line (input.take (bodyLen (reading count args arg.length)))
          (input.drop (bodyLen (reading count args arg.length))) (reading count args 0) := by
      have hbulk : (reading count args arg.length).bulkLen = arg.length := rfl
      rw [readLine, hbulk, if_neg (Nat.ne_of_gt hpos), if_neg (by omega)]
      rfl
    by_cases hcut : (arg ++ crlf).take n = []
    · exact ⟨.eof, .inl rfl, parse0_ioErr (by rw [hread, if_pos hcut])⟩
    · exact ⟨.unexpectedEOF, .inr rfl, parse0_ioErr (by rw [hread, if_neg hcut, if_pos hshort])⟩

/-- A cut inside the second part comes after the whole first part. -/
theorem take_append_of_length_le {α : Type} {l l' : List α} {n : Nat} (h : l.length ≤ n) :
    (l ++ l').take n = l ++ l'.take (n - l.length) := by
  rw [List.take_append, List.take_of_length_le h]

theorem breaks_args {count : Nat} {args args' : List Bytes}
    (hcount : args.length + args'.length = count)
    (hsafe : ∀ arg ∈ args', ¬ Dollar arg ∧ arg.length + 2 < 2 ^ 63) {n : Nat}
    (hn : n < (encodeArgs args').length) :
    Breaks (reading count args 0) ((encodeArgs args').take n) := by
  induction args' generalizing args n with
  | nil => simp [encodeArgs] at hn
  | cons arg args' ih =>
      obtain ⟨harg, hlen⟩ := hsafe arg List.mem_cons_self
      have hlt : args.length < count := by
        rw [List.length_cons] at hcount
        omega
      have hline : (10 : UInt8) ∉ bytes "$" ++ formatNat arg.length := by
        simp [bytes, newline_not_mem_formatNat]
      rw [encodeArgs_cons, List.append_assoc _ arg] at hn ⊢
      by_cases hhead : n < (bytes "$" ++ formatNat arg.length ++ crlf).length
      · rw [List.append_assoc, List.take_append_of_le_length (Nat.le_of_lt hhead)]
        exact breaks_line hline hhead rfl
      · rw [List.append_assoc, take_append_of_length_le (Nat.le_of_not_lt hhead), Breaks,
          parse0_length hlt (by omega)]
        generalize hm : n - (bytes "$" ++ formatNat arg.length ++ crlf).length = m
        by_cases hbody : m < (arg ++ crlf).length
        · rw [List.take_append_of_le_length (Nat.le_of_lt hbody)]
          exact breaks_body hlen hbody
        · rw [take_append_of_length_le (Nat.le_of_not_lt hbody), parse0_body harg hlen]
          have hrest : m - (arg ++ crlf).length < (encodeArgs args').length := by
            simp only [List.length_append] at hn hm hhead hbody ⊢
            omega
          have hmore : args' ≠ [] := by
            rintro rfl
            simp [encodeArgs] at hrest
          have hpos := List.length_pos_iff.mpr hmore
          rw [if_neg (by rw [List.length_cons] at hcount; omega)]
          refine ih ?_ (fun a ha => hsafe a (List.mem_cons_of_mem _ ha)) hrest
          rw [List.length_append, List.length_singleton, ← hcount, List.length_cons]
          omega

/-- A command line that is cut off anywhere is never taken for a shorter one. -/
theorem breaks_encode {line : List Bytes} (hne : line ≠ []) (hsafe : Safe line) {n : Nat}
    (hn : n < (encode line).length) : Breaks .zero ((encode line).take n) := by
  have hline : (10 : UInt8) ∉ bytes "*" ++ formatNat line.length := by
    simp [bytes, newline_not_mem_formatNat]
  have hpos : 0 < line.length := List.length_pos_iff.mpr hne
  rw [encode_eq] at hn ⊢
  by_cases hhead : n < (bytes "*" ++ formatNat line.length ++ crlf).length
  · rw [List.take_append_of_le_length (Nat.le_of_lt hhead)]
    exact breaks_line hline hhead rfl
  · rw [take_append_of_length_le (Nat.le_of_not_lt hhead), Breaks, parse0_count hpos hsafe.1]
    refine breaks_args (by simp) hsafe.2 ?_
    rw [List.length_append] at hn
    omega

def whole (n : Nat) : List (List Bytes) → List (List Bytes)
  | [] => []
  | line :: lines =>
      if (encode line).length ≤ n then line :: whole (n - (encode line).length) lines else []

theorem whole_beginning (n : Nat) (lines : List (List Bytes)) : whole n lines <+: lines := by
  induction lines generalizing n with
  | nil => exact List.prefix_rfl
  | cons line lines ih =>
      rw [whole]
      split
      · exact (List.cons_prefix_cons).mpr ⟨rfl, ih _⟩
      · exact List.nil_prefix

theorem whole_fits (n : Nat) (lines : List (List Bytes)) :
    ((whole n lines).flatMap encode).length ≤ n := by
  induction lines generalizing n with
  | nil => exact Nat.zero_le n
  | cons line lines ih =>
      rw [whole]
      split
      · rw [List.flatMap_cons, List.length_append]
        have hrest := ih (n - (encode line).length)
        omega
      · exact Nat.zero_le n

/-- As many lines as fit. -/
theorem prefix_whole {n : Nat} {lines lines' : List (List Bytes)} (h : lines' <+: lines)
    (hfit : (lines'.flatMap encode).length ≤ n) : lines' <+: whole n lines := by
  induction lines generalizing n lines' with
  | nil =>
      rw [List.prefix_nil.mp h]
      exact List.nil_prefix
  | cons line lines ih =>
      cases lines' with
      | nil => exact List.nil_prefix
      | cons line' lines' =>
          obtain ⟨rfl, hrest⟩ := List.cons_prefix_cons.mp h
          rw [List.flatMap_cons, List.length_append] at hfit
          rw [whole, if_pos (by omega)]
          exact List.cons_prefix_cons.mpr ⟨rfl, ih hrest (by omega)⟩

/-- After a cut at any byte the parser sends the lines that are whole, and one error. -/
theorem parseStream_take {lines : List (List Bytes)} (hne : ∀ line ∈ lines, line ≠ [])
    (hsafe : ∀ line ∈ lines, Safe line) (n : Nat) :
    ∃ err, parseStream ((lines.flatMap encode).take n) = (whole n lines).map decoded ++ [.error err] ∧
      AtEnd err := by
  induction lines generalizing n with
  | nil => exact ⟨.eof, by rw [List.flatMap_nil, List.take_nil, parseStream, parse0_nil]; rfl, .inl rfl⟩
  | cons line lines ih =>
      have hline := hne line List.mem_cons_self
      have hs := hsafe line List.mem_cons_self
      rw [List.flatMap_cons, whole]
      by_cases hfit : (encode line).length ≤ n
      · obtain ⟨err, hparse, herr⟩ := ih (fun l hl => hne l (List.mem_cons_of_mem _ hl))
          (fun l hl => hsafe l (List.mem_cons_of_mem _ hl)) (n - (encode line).length)
        refine ⟨err, ?_, herr⟩
        rw [if_pos hfit, take_append_of_length_le hfit, parseStream, parse0_encode hline hs]
        exact congrArg _ hparse
      · obtain ⟨err, herr, hparse⟩ := breaks_encode hline hs (Nat.lt_of_not_le hfit)
        rw [if_neg hfit, List.take_append_of_le_length (Nat.le_of_not_le hfit)]
        exact ⟨err, hparse, herr⟩

end Traitor.Codec

namespace Traitor.Database

open Protocol Traitor.Parser

variable {σ : Type} [LinearOrder σ] [Inhabited σ] (env : Env σ)

/-- A log that is cut at any byte loads the lines that are whole, and no other. -/
theorem loadFile_take {lines : List (List Bytes)} (h : ∀ line ∈ lines, LoadsAsWritten line) (n : Nat)
    (w : World σ) :
    loadFile env 0 ((file lines).take n) w = loadAof env (commands (Codec.whole n lines)) w := by
  have hne : ∀ line ∈ lines, line ≠ [] := by
    intro line hline
    obtain ⟨name, args, rfl, -⟩ := h line hline
    exact List.cons_ne_nil _ _
  have hsafe : ∀ line ∈ lines, Codec.Safe line := fun line hline =>
    (h line hline).elim fun _ ⟨_, _, _, hs⟩ => hs
  obtain ⟨err, hparse, -⟩ := Codec.parseStream_take hne hsafe n
  have hdecoded : (Codec.whole n lines).map Codec.decoded =
      (commands (Codec.whole n lines)).map fun line => Codec.decoded (line.map text) := by
    simp [commands, text, Function.comp_def]
  rw [loadFile, if_neg (by omega), file, hparse, hdecoded, loadPayloads_decoded, asRead_commands]
  cases err <;> rfl

/-- So does a bound on the bytes that are read. -/
theorem loadFile_bounded {lines : List (List Bytes)} (h : ∀ line ∈ lines, LoadsAsWritten line)
    {maxBytes : Nat} (hmax : 0 < maxBytes) (w : World σ) :
    loadFile env maxBytes (file lines) w = loadAof env (commands (Codec.whole maxBytes lines)) w := by
  rw [← loadFile_take env h, loadFile, loadFile, if_pos hmax, if_neg (by omega)]

/-- Of a log that is cut at any byte, or read up to there, the longest beginning of whole lines
that fits is executed, and nothing else. -/
theorem torn_log_loads {lines : List (List Bytes)} (h : ∀ line ∈ lines, LoadsAsWritten line) (n : Nat)
    (w : World σ) :
    ∃ kept, kept <+: lines ∧ (file kept).length ≤ n ∧
      (∀ kept', kept' <+: lines → (file kept').length ≤ n → kept' <+: kept) ∧
      loadFile env 0 ((file lines).take n) w = loadAof env (commands kept) w ∧
      (0 < n → loadFile env n (file lines) w = loadAof env (commands kept) w) :=
  ⟨Codec.whole n lines, Codec.whole_beginning n lines, Codec.whole_fits n lines,
    fun _ hprefix hfit => Codec.prefix_whole hprefix hfit, loadFile_take env h n w,
    fun hn => loadFile_bounded env h hn w⟩

def persistLine : List Bytes := [bytes "persist", bytes "k"]

theorem torn_log_loads_persistLine :
    ∃ kept, kept <+: [persistLine] ∧ (file kept).length ≤ 7 ∧
      (∀ kept', kept' <+: [persistLine] → (file kept').length ≤ 7 → kept' <+: kept) ∧
      loadFile (.plain 0) 0 ((file [persistLine]).take 7) .empty =
        loadAof (.plain 0) (commands kept) .empty ∧
      (0 < 7 → loadFile (.plain 0) 7 (file [persistLine]) .empty =
        loadAof (.plain 0) (commands kept) .empty) := by
  refine torn_log_loads (.plain 0) ?_ 7 .empty
  intro line hline
  obtain rfl := List.mem_singleton.mp hline
  exact ⟨_, _, rfl, by decide, by decide⟩

end Traitor.Database
