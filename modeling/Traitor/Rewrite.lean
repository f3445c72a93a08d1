import Traitor.AlikeWrites
import Traitor.Codec

namespace Traitor.Database

open Lib.Effects Lib.Strconv Protocol Traitor.Parser

variable {σ : Type} [LinearOrder σ] [Inhabited σ] (env : Env σ)

/-- Errors and what is no command line are passed over, up to the end of the file. -/
def loadPayloads : List Payload → World σ → World σ
  | [], w => w
  | p :: payloads, w =>
      match p.err, p.data with
      | some .eof, _ => w
      | none, some (.multiBulk args) => loadPayloads payloads (exec env args w).2
      | _, _ => loadPayloads payloads w

/-- No bound is a bound of 0. -/
def loadFile (maxBytes : Nat) (content : Bytes) (w : World σ) : World σ :=
  loadPayloads env (parseStream (if 0 < maxBytes then content.take maxBytes else content)) w

structure RewriteCtx where
  tmpFile : Bytes
  fileSize : Nat
  dbIdx : Nat

def databases : Nat := 1

def selectCmd (i : Nat) : CmdLine := cmdLine "SELECT" [formatNat i]

def dumpKey (db : DB σ) (key : Bytes) : List CmdLine :=
  ((db.data.lookup key).bind (entityToCmd env key)).toList ++
    ((db.ttlMap.lookup key).map (makeExpireCmd key)).toList

def dump (db : DB σ) : List CmdLine := (env.choices.order db.data.keys).flatMap (dumpKey env db)

def startRewrite (content : Bytes) (currentDB : Nat) : RewriteCtx := ⟨[], content.length, currentDB⟩

def doRewrite (content : Bytes) (ctx : RewriteCtx) : RewriteCtx :=
  let tmp := loadFile env ctx.fileSize content .empty
  { ctx with
    tmpFile := ctx.tmpFile ++ ((List.range databases).flatMap fun i =>
      selectCmd i :: dump env tmp.db).flatMap multiBulkBytes }

def finishRewrite (content : Bytes) (currentDB : Nat) (ctx : RewriteCtx) : Bytes :=
  ctx.tmpFile ++ multiBulkBytes (selectCmd ctx.dbIdx) ++ content.drop ctx.fileSize ++
    multiBulkBytes (selectCmd currentDB)

/-- The file left by `Rewrite`. It is longer by the lines appended when it is loaded, and
by more of them at the end. -/
def rewrite (content appended more : Bytes) : Bytes :=
  finishRewrite (content ++ appended ++ more) 0
    (doRewrite env (content ++ appended) (startRewrite content 0))

def file (lines : List (List Bytes)) : Bytes := lines.flatMap Codec.encode

def controls : List Bytes := [bytes "multi", bytes "discard", bytes "exec", bytes "watch"]

/-- A line of a command of the table, or for another database, that the reader of the file
gives back as it was written. -/
def LoadsAsWritten (line : List Bytes) : Prop :=
  ∃ name args, line = name :: args ∧ toLower name ∉ controls ∧ Codec.Safe line

def NoneExpired (w : World σ) : Prop := ∀ key, (w.db.slot key).isExpired env.now = false

/-- What is loaded from the file after a rewrite is what was loaded from it before, with
every list of lines appended in the meantime. -/
def KeepsMeaning (lines : List (List Bytes)) : Prop :=
  ∀ appended more, (∀ line ∈ appended ++ more, LoadsAsWritten line) →
    NoneExpired env (loadFile env 0 (file (lines ++ appended ++ more)) .empty) →
      (loadFile env 0 (rewrite env (file lines) (file appended) (file more)) .empty).db.slot =
        (loadFile env 0 (file (lines ++ appended ++ more)) .empty).db.slot

def asRead (line : CmdLine) : CmdLine := line.map fun s => some (text s)

variable {env} {w w' : World σ} {key k : Bytes}

theorem loadPayloads_decoded (lines : List CmdLine) (payloads : List Payload) (w : World σ) :
    loadPayloads env (lines.map (fun line => Codec.decoded (line.map text)) ++ payloads) w =
      loadPayloads env payloads (loadAof env (lines.map asRead) w) := by
  induction lines generalizing w with
  | nil => rfl
  | cons line lines ih =>
      rw [List.map_cons, List.cons_append, List.map_cons, loadAof_cons, ← ih]
      have hread : asRead line = (line.map text).map some := by simp [asRead, Function.comp_def]
      rw [hread]
      rfl

omit [LinearOrder σ] [Inhabited σ] in
theorem parseStream_lines {lines : List CmdLine} (hne : ∀ line ∈ lines, line ≠ [])
    (hsafe : ∀ line ∈ lines, Codec.Safe (line.map text)) :
    parseStream (lines.flatMap multiBulkBytes) =
      lines.map (fun line => Codec.decoded (line.map text)) ++ [.error .eof] := by
  induction lines with
  | nil => exact Codec.parse0_nil
  | cons line lines ih =>
      rw [List.flatMap_cons, parseStream,
        Codec.parse0_multiBulk (hne line List.mem_cons_self) (hsafe line List.mem_cons_self)]
      exact congrArg _ (ih (fun l hl => hne l (List.mem_cons_of_mem _ hl))
        fun l hl => hsafe l (List.mem_cons_of_mem _ hl))

theorem loadFile_lines {lines : List CmdLine} (hne : ∀ line ∈ lines, line ≠ [])
    (hsafe : ∀ line ∈ lines, Codec.Safe (line.map text)) (w : World σ) :
    loadFile env 0 (lines.flatMap multiBulkBytes) w = loadAof env (lines.map asRead) w := by
  rw [loadFile, if_neg (by omega), parseStream_lines hne hsafe, loadPayloads_decoded]
  rfl

def commands (lines : List (List Bytes)) : List CmdLine := lines.map (·.map some)

omit [LinearOrder σ] [Inhabited σ] in
theorem file_eq (lines : List (List Bytes)) : file lines = (commands lines).flatMap multiBulkBytes := by
  simp only [file, commands, List.flatMap_map]
  rfl

omit [LinearOrder σ] [Inhabited σ] in
theorem asRead_commands (lines : List (List Bytes)) :
    (commands lines).map asRead = commands lines := by
  simp [commands, asRead, text, Function.comp_def]

omit [LinearOrder σ] [Inhabited σ] in
theorem commands_asWritten {lines : List (List Bytes)} (h : ∀ line ∈ lines, LoadsAsWritten line) :
    ∀ line ∈ commands lines, line ≠ [] ∧ Codec.Safe (line.map text) := by
  intro line hline
  obtain ⟨l, hl, rfl⟩ := List.mem_map.mp hline
  obtain ⟨name, args, rfl, -, hsafe⟩ := h l hl
  have htext : ((name :: args).map some).map text = name :: args := by simp [text, Function.comp_def]
  exact ⟨by simp, by rw [htext]; exact hsafe⟩

theorem loadFile_file {lines : List (List Bytes)} (h : ∀ line ∈ lines, LoadsAsWritten line) (w : World σ) :
    loadFile env 0 (file lines) w = loadAof env (commands lines) w := by
  rw [file_eq, loadFile_lines (fun l hl => (commands_asWritten h l hl).1)
    fun l hl => (commands_asWritten h l hl).2, asRead_commands]

omit [LinearOrder σ] [Inhabited σ] in
theorem file_append (lines lines' : List (List Bytes)) :
    file (lines ++ lines') = file lines ++ file lines' := by simp [file]

omit [LinearOrder σ] [Inhabited σ] in
theorem file_pos {lines : List (List Bytes)} (h : lines ≠ []) : 0 < (file lines).length := by
  obtain ⟨line, lines, rfl⟩ := List.exists_cons_of_ne_nil h
  simp [file, Codec.encode, Reply.toBytes, multiBulkBytes, bytes]

/-- What is loaded to be dumped: the lines of the file, or where there were none, those that
were appended. -/
def dumped (env : Env σ) (lines appended : List (List Bytes)) : World σ :=
  loadAof env (commands (if lines = [] then appended else lines)) .empty

theorem loadFile_startRewrite {lines appended : List (List Bytes)}
    (h : ∀ line ∈ lines, LoadsAsWritten line) (h' : ∀ line ∈ appended, LoadsAsWritten line) :
    loadFile env (startRewrite (file lines) 0).fileSize (file lines ++ file appended) .empty =
      dumped env lines appended := by
  rw [dumped, startRewrite]
  by_cases hnil : lines = []
  · subst hnil
    exact loadFile_file h' .empty
  · have hpos := file_pos hnil
    have htake : loadFile env (file lines).length (file lines ++ file appended) .empty =
        loadFile env 0 (file lines) .empty := by
      rw [loadFile, if_pos hpos, List.take_left, loadFile, if_neg (by omega)]
    rw [htake, loadFile_file h, if_neg hnil]

def rewritten (env : Env σ) (lines appended more : List (List Bytes)) : List CmdLine :=
  selectCmd 0 :: dump env (dumped env lines appended).db ++ [selectCmd 0] ++
    commands (appended ++ more) ++ [selectCmd 0]

theorem rewrite_eq {lines appended : List (List Bytes)} (h : ∀ line ∈ lines, LoadsAsWritten line)
    (h' : ∀ line ∈ appended, LoadsAsWritten line) (more : List (List Bytes)) :
    rewrite env (file lines) (file appended) (file more) =
      (rewritten env lines appended more).flatMap multiBulkBytes := by
  have hfile : file appended ++ file more = (commands (appended ++ more)).flatMap multiBulkBytes := by
    rw [← file_append, file_eq]
  simp only [rewrite, finishRewrite, doRewrite, loadFile_startRewrite h h']
  simp only [startRewrite, List.append_assoc, List.drop_left, rewritten, List.flatMap_append, ← hfile]
  simp [databases, List.range_succ]

def readBack (env : Env σ) (d : Dict HashValue) : Dict HashValue :=
  putFields ∅ ((env.choices.order d.keys).map fun f => (some f, some (text (valueOf d f))))

def Slot.reloaded (env : Env σ) (s : Slot σ) : Slot σ :=
  match s.data with
  | some (.str b) => ⟨some (.str (some (text b))), s.ttl.map replayed⟩
  | some (.hash d) =>
      if d.keys.card = 0 then .empty else ⟨some (.hash (readBack env d)), s.ttl.map replayed⟩
  | _ => .empty

omit [LinearOrder σ] [Inhabited σ] in
theorem fieldPairs_flatMap (fields : List Bytes) (f : Bytes → Slice) :
    fieldPairs (fields.flatMap fun field => [some field, f field]) =
      fields.map fun field => (some field, f field) := by
  induction fields with
  | nil => rfl
  | cons field fields ih => simp [fieldPairs, ih]

omit [LinearOrder σ] [Inhabited σ] in
theorem execHMSet_final {rest : List Slice} (heven : rest.length % 2 = 0) {v : World σ}
    (hv : v.db.slot key = .empty) (k : Bytes) :
    (final (execHMSet env (some key :: rest)) v).db.slot k =
      if k = key then ⟨some (.hash (putFields ∅ (fieldPairs rest))), none⟩ else v.db.slot k := by
  have hlive : v.db.live env key = none := by
    rw [DB.live_slot, hv]
    rfl
  have hodd : (some key :: rest).length % 2 = 1 := by
    simp only [List.length_cons]
    omega
  have hempty : (Slot.evict (Slot.empty : Slot σ) env.now).ttl = none := rfl
  refine (wp_iff _ (fun _ w' => w'.db.slot k = if k = key then
    ⟨some (.hash (putFields ∅ (fieldPairs rest))), none⟩ else v.db.slot k) v).mp ?_
  simp only [execHMSet, hodd, ne_eq, not_true, if_false, getOrInitDict, getOrInit, wp_bind, wp_getAs, DB.view,
    text, Option.getD_some, hlive, putEntity, wp_modifyDB, wp_pure, addAof, wp_modify]
  by_cases hk : k = key
  · simp [hk, hv, hempty]
  · simp [hk]

theorem exec_hmset {rest : List Slice} (heven : rest.length % 2 = 0) (hne : rest ≠ []) {v : World σ}
    (hv : v.db.slot key = .empty) (k : Bytes) :
    (exec env (cmdLine3 "HMSET" (some key :: rest)) v).2.db.slot k =
      if k = key then ⟨some (.hash (putFields ∅ (fieldPairs rest))), none⟩ else v.db.slot k := by
  have hlength : 0 < rest.length := List.length_pos_iff.mpr hne
  have harity : validateArity (command env .hMSet).arity (cmdLine3 "HMSET" (some key :: rest)) = true := by
    simp [validateArity, command, cmdLine3]
    omega
  have hexec : ∃ versionMap, (exec env (cmdLine3 "HMSET" (some key :: rest)) v).2 =
      final (execHMSet env (some key :: rest)) (v.versions versionMap) :=
    exec_command (c := .hMSet) rfl harity
  obtain ⟨versionMap, hw⟩ := hexec
  rw [hw, execHMSet_final heven (v := v.versions versionMap) hv]
  rfl

/-- Under a key that is not there the line for an entity puts what it says of it. -/
theorem load_entity (env : Env σ) {v : World σ} (hv : v.db.slot key = .empty) (o : Option (Entity σ)) (k : Bytes) :
    (loadAof env (((o.bind (entityToCmd env key)).toList).map asRead) v).db.slot k =
      if k = key then Slot.reloaded env ⟨o, none⟩ else v.db.slot k := by
  have hsame : v.db.slot k = if k = key then Slot.empty else v.db.slot k := by
    split
    · rename_i hk
      rw [hk, hv]
    · rfl
  cases o with
  | none => exact hsame
  | some e =>
      cases e with
      | list l => exact hsame
      | set s => exact hsame
      | zset z => exact hsame
      | str b =>
          have hset : (exec (env.atTime env.now) (cmdLine3 "SET" [some key, some (text b)]) v).2.db.slot k =
              if k = key then ⟨some (.str (some (text b))), none⟩ else v.db.slot k :=
            exec_set rfl rfl v rfl k
          exact hset
      | hash d =>
          let rest := (env.choices.order d.keys).flatMap fun f => [some f, some (text (valueOf d f))]
          have hread : asRead (hashToCmd env key d) = cmdLine3 "HMSET" (some key :: rest) := by
            simp [asRead, hashToCmd, cmdLine3, rest, text, List.map_flatMap]
          have hloaded : (loadAof env (((some (Entity.hash d)).bind (entityToCmd env key)).toList.map
              asRead) v) = (exec env (asRead (hashToCmd env key d)) v).2 := rfl
          have hlength : rest.length = 2 * d.keys.card := by
            rw [← env.choices.length_order]
            simp [rest, Nat.mul_comm]
          rw [hloaded, hread]
          by_cases hcard : d.keys.card = 0
          · have hnil : rest = [] := List.length_eq_zero_iff.mp (by omega)
            have harity : validateArity (command env .hMSet).arity
                (some (bytes "HMSET") :: [some key]) = false := rfl
            have hsame' : (exec env (cmdLine3 "HMSET" (some key :: rest)) v).2 = v := by
              rw [hnil]
              exact exec_badArity rfl harity
            simp only [Slot.reloaded, if_pos hcard, hsame']
            exact hsame
          · have hfields : rest ≠ [] := by
              intro hn
              rw [hn, List.length_nil] at hlength
              omega
            rw [exec_hmset (by omega) hfields hv]
            simp only [Slot.reloaded, if_neg hcard, rest, fieldPairs_flatMap]
            rfl

omit [LinearOrder σ] [Inhabited σ] in
theorem reloaded_expire (o : Option (Entity σ)) (e : Int) :
    Slot.reloaded env ⟨o, some e⟩ =
      if (Slot.reloaded env ⟨o, none⟩).live env.now = none
      then (Slot.reloaded env ⟨o, none⟩).evict env.now
      else ⟨(Slot.reloaded env ⟨o, none⟩).data, some (replayed e)⟩ := by
  have hempty : Slot.live (Slot.empty : Slot σ) env.now = none := rfl
  have hthere (e' : Entity σ) : Slot.live (⟨some e', none⟩ : Slot σ) env.now = some e' := rfl
  cases o with
  | none => rfl
  | some e =>
      cases e with
      | list l => rfl
      | set s => rfl
      | zset z => rfl
      | str b => rfl
      | hash d =>
          by_cases hcard : d.keys.card = 0
          · simp only [Slot.reloaded, if_pos hcard, hempty]
            rfl
          · simp only [Slot.reloaded, if_neg hcard, Option.map_none, hthere]
            rfl

theorem load_dumpKey (env : Env σ) (db : DB σ) {v : World σ} (hv : v.db.slot key = .empty) (k : Bytes) :
    (loadAof env ((dumpKey env db key).map asRead) v).db.slot k =
      if k = key then (db.slot key).reloaded env else v.db.slot k := by
  rw [dumpKey, List.map_append, loadAof_append]
  have hslot : db.slot key = ⟨db.data.lookup key, db.ttlMap.lookup key⟩ := rfl
  have hentity := load_entity env hv (db.data.lookup key)
  rw [hslot]
  cases db.ttlMap.lookup key with
  | none => exact hentity k
  | some e =>
      have hkey := hentity key
      rw [if_pos rfl] at hkey
      have hexpire (u : World σ) : (exec env (makeExpireCmd key e) u).2.db.slot k =
          if k = key then
            if (u.db.slot key).live env.now = none then (u.db.slot key).evict env.now
            else ⟨(u.db.slot key).data, some (replayed e)⟩
          else u.db.slot k := exec_makeExpireCmd e u k
      apply (hexpire _).trans
      split
      · rw [reloaded_expire]
        exact congrArg (fun s : Slot σ => if s.live env.now = none then s.evict env.now
          else ⟨s.data, some (replayed e)⟩) hkey
      · rename_i hk
        exact (hentity k).trans (if_neg hk)

/-- What is there after the lines of some keys are loaded. -/
theorem load_dumpKeys (db : DB σ) {keys : List Bytes} (hnodup : keys.Nodup) {v : World σ}
    (hv : ∀ key ∈ keys, v.db.slot key = .empty) (k : Bytes) :
    (loadAof env ((keys.flatMap (dumpKey env db)).map asRead) v).db.slot k =
      if k ∈ keys then (db.slot k).reloaded env else v.db.slot k := by
  induction keys generalizing v with
  | nil => simp
  | cons key keys ih =>
      obtain ⟨hkey, hnodup⟩ := List.nodup_cons.mp hnodup
      have hstep := load_dumpKey env db (hv key List.mem_cons_self)
      rw [List.flatMap_cons, List.map_append, loadAof_append, ih hnodup]
      · rw [hstep]
        by_cases hk : k = key
        · subst hk
          simp [hkey]
        · simp [hk]
      · intro key' hkey'
        rw [hstep, if_neg (fun he : key' = key => hkey (he ▸ hkey')), hv key' (List.mem_cons_of_mem _ hkey')]

theorem load_dump (db : DB σ) (k : Bytes) :
    (loadAof env ((dump env db).map asRead) .empty).db.slot k = (db.slot k).reloaded env := by
  rw [dump, load_dumpKeys db (env.choices.order_nodup _) fun _ _ => rfl]
  split
  · rfl
  · rename_i hk
    rw [env.choices.mem_order, Finmap.mem_keys, ← Finmap.lookup_isSome, Bool.not_eq_true,
      Option.isSome_eq_false_iff, Option.isNone_iff_eq_none] at hk
    have hslot : db.slot k = ⟨none, db.ttlMap.lookup k⟩ := by rw [DB.slot, hk]
    rw [hslot]
    rfl

/-- A line does the same to databases that only differ in versions and in what they logged. -/
theorem exec_slots {line : CmdLine} (h : w.db.slot = w'.db.slot) :
    (exec env line w).2.db.slot = (exec env line w').2.db.slot := by
  cases line with
  | nil => rw [exec_nil, exec_nil, h]
  | cons name args =>
      cases hc : cmdTable (toLower (text name)) with
      | none => rw [exec_unknown hc, exec_unknown hc, h]
      | some c =>
          by_cases harity : validateArity (command env c).arity (name :: args) = true
          · obtain ⟨versionMap, hw⟩ := exec_command (w := w) hc harity
            obtain ⟨versionMap', hw'⟩ := exec_command (w := w') hc harity
            have hsimilar : Similar env Set.univ (w.versions versionMap) (w'.versions versionMap') :=
              Similar.univ_iff.mpr h
            rw [hw, hw', Similar.univ_iff.mp (command_alike c args (fun _ _ => trivial)
              (fun _ _ => trivial) _ _ hsimilar).2]
          · have harity := Bool.not_eq_true _ ▸ harity
            rw [exec_badArity hc harity, exec_badArity hc harity, h]

theorem loadAof_slots {lines : List CmdLine} (h : w.db.slot = w'.db.slot) :
    (loadAof env lines w).db.slot = (loadAof env lines w').db.slot := by
  induction lines generalizing w w' with
  | nil => exact h
  | cons line lines ih =>
      rw [loadAof_cons, loadAof_cons]
      exact ih (exec_slots h)

/-- The line for a key says all of what is under it, and its expiration is one of whole
milliseconds. -/
def Slot.Dumpable (s : Slot σ) : Prop :=
  (∀ e, s.ttl = some e → replayed e = e) ∧
    match s.data with
    | none => s.ttl = none
    | some (.str b) => b ≠ none
    | some (.hash d) => d.keys.card ≠ 0 ∧ ∀ f v, d.lookup f = some v → ∃ b, v = .slice (some b)
    | some _ => False

omit [LinearOrder σ] [Inhabited σ] in
theorem lookup_putFields (d : Dict HashValue) (fields : List Bytes) (g : Bytes → Slice) (f : Bytes) :
    (putFields d (fields.map fun f => (some f, g f))).lookup f =
      if f ∈ fields then some (.slice (g f)) else d.lookup f := by
  induction fields generalizing d with
  | nil => rfl
  | cons field fields ih =>
      have hcons : putFields d ((field :: fields).map fun f => (some f, g f)) =
          putFields (d.insert field (.slice (g field))) (fields.map fun f => (some f, g f)) := rfl
      rw [hcons, ih]
      by_cases hf : f = field
      · subst hf
        simp
      · simp [hf]

omit [LinearOrder σ] [Inhabited σ] in
theorem lookup_readBack (env : Env σ) (d : Dict HashValue) (f : Bytes) :
    (readBack env d).lookup f = (d.lookup f).map fun v => .slice (some (text v.bytes)) := by
  have hmem : f ∈ env.choices.order d.keys ↔ (d.lookup f).isSome := by
    rw [env.choices.mem_order, Finmap.mem_keys, Finmap.lookup_isSome]
  rw [readBack, lookup_putFields]
  simp only [hmem]
  cases hf : d.lookup f with
  | none => rfl
  | some v => simp [valueOf, hf]

omit [LinearOrder σ] [Inhabited σ] in
theorem readBack_eq_iff (d : Dict HashValue) :
    readBack env d = d ↔ ∀ f v, d.lookup f = some v → ∃ b, v = .slice (some b) := by
  constructor
  · intro h f v hv
    have hlookup := lookup_readBack env d f
    rw [h, hv] at hlookup
    exact ⟨_, Option.some.inj hlookup⟩
  · intro h
    apply Finmap.ext_lookup
    intro f
    rw [lookup_readBack]
    cases hf : d.lookup f with
    | none => rfl
    | some v =>
        obtain ⟨b, rfl⟩ := h f v hf
        rfl

omit [LinearOrder σ] [Inhabited σ] in
theorem map_replayed_iff (o : Option Int) :
    o.map replayed = o ↔ ∀ e, o = some e → replayed e = e := by
  cases o <;> simp

omit [LinearOrder σ] [Inhabited σ] in
theorem reloaded_eq_iff (s : Slot σ) : s.reloaded env = s ↔ s.Dumpable := by
  obtain ⟨data, ttl⟩ := s
  have heq (a : Entity σ) (o : Option Int) (b : Entity σ) :
      (⟨some a, o⟩ : Slot σ) = ⟨some b, ttl⟩ ↔ a = b ∧ o = ttl := by simp
  have hempty (b : Entity σ) : ¬ (Slot.empty : Slot σ) = ⟨some b, ttl⟩ := by simp [Slot.empty]
  cases data with
  | none =>
      cases ttl <;> simp [Slot.reloaded, Slot.Dumpable, Slot.empty]
  | some e =>
      cases e with
      | list l => simp [Slot.reloaded, Slot.Dumpable, hempty]
      | set s => simp [Slot.reloaded, Slot.Dumpable, hempty]
      | zset z => simp [Slot.reloaded, Slot.Dumpable, hempty]
      | str b =>
          simp only [Slot.reloaded, Slot.Dumpable, heq, map_replayed_iff, Entity.str.injEq]
          cases b <;> simp [text]
      | hash d =>
          by_cases hcard : d.keys.card = 0
          · simp only [Slot.reloaded, Slot.Dumpable, hcard]
            simpa using hempty _
          · simp only [Slot.reloaded, Slot.Dumpable, if_neg hcard, heq, Entity.hash.injEq,
              map_replayed_iff, readBack_eq_iff]
            tauto

omit [LinearOrder σ] [Inhabited σ] in
theorem dump_ne_nil {db : DB σ} {line : CmdLine} (h : line ∈ dump env db) : line ≠ [] := by
  obtain ⟨key, -, hline⟩ := List.mem_flatMap.mp h
  rcases List.mem_append.mp hline with hline | hline
  · obtain ⟨e, -, he⟩ := Option.bind_eq_some_iff.mp (Option.mem_toList.mp hline)
    cases e <;> simp [entityToCmd] at he <;> simp [← he, cmdLine3, hashToCmd]
  · obtain ⟨e, -, rfl⟩ := Option.map_eq_some_iff.mp (Option.mem_toList.mp hline)
    simp [makeExpireCmd, cmdLine]

theorem exec_selectCmd : (exec env (asRead (selectCmd 0)) w).2 = w := exec_unknown rfl

/-- A load of the file after a rewrite goes on from what the dump says. -/
theorem load_rewrite {lines appended more : List (List Bytes)} (h : ∀ line ∈ lines, LoadsAsWritten line)
    (h' : ∀ line ∈ appended ++ more, LoadsAsWritten line)
    (hdump : ∀ line ∈ dump env (dumped env lines appended).db, Codec.Safe (line.map text))
    {u : World σ} (hu : ∀ key, u.db.slot key = ((dumped env lines appended).db.slot key).reloaded env) :
    (loadFile env 0 (rewrite env (file lines) (file appended) (file more)) .empty).db.slot =
      (loadAof env (commands (appended ++ more)) u).db.slot := by
  have hselect : Codec.Safe ((selectCmd 0).map text) := by decide
  have hsafe : ∀ line ∈ rewritten env lines appended more,
      line ≠ [] ∧ Codec.Safe (line.map text) := by
    intro line hline
    simp only [rewritten, List.mem_append, List.mem_cons, List.not_mem_nil, or_false] at hline
    rcases hline with ((((rfl | hline) | rfl) | hline) | rfl)
    · exact ⟨by simp [selectCmd, cmdLine], hselect⟩
    · exact ⟨dump_ne_nil hline, hdump line hline⟩
    · exact ⟨by simp [selectCmd, cmdLine], hselect⟩
    · exact commands_asWritten h' line hline
    · exact ⟨by simp [selectCmd, cmdLine], hselect⟩
  rw [rewrite_eq h (fun l hl => h' l (List.mem_append_left _ hl)),
    loadFile_lines (fun l hl => (hsafe l hl).1) fun l hl => (hsafe l hl).2]
  simp only [rewritten, List.map_append, List.map_cons, List.map_nil, loadAof_append, loadAof_cons,
    loadAof_nil, exec_selectCmd, asRead_commands]
  refine loadAof_slots (funext fun key => ?_)
  rw [load_dump, hu]

theorem exec_append {value : Bytes} {s : Slice} (hs : (w.db.slot key).string env.now = .ok s)
    (k : Bytes) :
    (exec env (cmdLine3 "append" [some key, some value]) w).2.db.slot k =
      if k = key then ⟨some (.str (append s value)), ((w.db.slot key).evict env.now).ttl⟩
      else w.db.slot k := by
  have hexec : ∃ versionMap, (exec env (cmdLine3 "append" [some key, some value]) w).2 =
      final (execAppend env [some key, some value]) (w.versions versionMap) :=
    exec_command (c := .append) rfl rfl
  obtain ⟨versionMap, hw⟩ := hexec
  rw [hw, execAppend_final]
  simp only [edited, text, Option.getD_some]
  rw [afterEdit_some (w := w.versions versionMap) (s := s) (v := append s value) hs rfl]
  by_cases hk : k = key
  · simp [hk]
  · simp [hk]

def appendLine : List Bytes := [bytes "append", bytes "k", bytes "v"]

omit [LinearOrder σ] [Inhabited σ] in
theorem appendLine_asWritten : ∀ line ∈ [appendLine], LoadsAsWritten line := by
  intro line hline
  obtain rfl := List.mem_singleton.mp hline
  exact ⟨_, _, rfl, by decide, by decide⟩

theorem appendLine_slot (env : Env σ) (k : Bytes) : (loadFile env 0 (file [appendLine]) .empty).db.slot k =
    if k = bytes "k" then ⟨some (.str (some (bytes "v"))), none⟩ else .empty := by
  rw [loadFile_file appendLine_asWritten]
  exact exec_append (w := .empty) rfl k

theorem appendLine_noneExpired : NoneExpired env (loadFile env 0 (file [appendLine]) .empty) := by
  intro k
  rw [appendLine_slot]
  split <;> rfl

theorem appendLine_dump : ∀ line ∈ dump env (loadFile env 0 (file [appendLine]) .empty).db,
    Codec.Safe (line.map text) := by
  intro line hline
  obtain ⟨k, -, hk⟩ := List.mem_flatMap.mp hline
  have hslot := appendLine_slot env k
  have hdata : (loadFile env 0 (file [appendLine]) .empty).db.data.lookup k = _ :=
    congrArg Slot.data hslot
  have httl : (loadFile env 0 (file [appendLine]) .empty).db.ttlMap.lookup k = _ :=
    congrArg Slot.ttl hslot
  rw [dumpKey, hdata, httl] at hk
  by_cases he : k = bytes "k"
  · subst he
    simp only [if_true] at hk
    obtain rfl := List.mem_singleton.mp hk
    decide
  · rw [if_neg he] at hk
    exact absurd hk (by simp [Slot.empty])

/-- With an empty file to begin with, what was appended is dumped, and executed again. -/
theorem not_keepsMeaning_nil : ¬ KeepsMeaning env ([] : List (List Bytes)) := by
  intro h
  let u := loadFile env 0 (file [appendLine]) .empty
  have hdumped : dumped env [] [appendLine] = u := (loadFile_file appendLine_asWritten .empty).symm
  have hreloaded (k : Bytes) : u.db.slot k = (u.db.slot k).reloaded env := by
    rw [appendLine_slot]
    split <;> rfl
  have heq : (loadFile env 0 (rewrite env (file []) (file [appendLine]) (file [])) .empty).db.slot =
      u.db.slot := h [appendLine] [] appendLine_asWritten appendLine_noneExpired
  rw [load_rewrite (by simp) appendLine_asWritten (hdumped ▸ appendLine_dump) (u := u)
    (by rw [hdumped]; exact hreloaded)] at heq
  have htwice : (loadAof env (commands ([appendLine] ++ [])) u).db.slot (bytes "k") =
      ⟨some (.str (some (bytes "vv"))), none⟩ := by
    refine (exec_append (w := u) (s := some (bytes "v")) ?_ _).trans ?_
    · rw [appendLine_slot]
      rfl
    · rw [appendLine_slot]
      rfl
  rw [heq, appendLine_slot] at htwice
  simp [bytes] at htwice

theorem dumped_of_ne_nil (env : Env σ) {lines : List (List Bytes)} (hne : lines ≠ []) (h : ∀ line ∈ lines, LoadsAsWritten line)
    (appended : List (List Bytes)) :
    dumped env lines appended = loadFile env 0 (file lines) .empty := by
  rw [dumped, if_neg hne, loadFile_file h]

/-- With no lines appended the dump alone has to bring everything back. -/
theorem dumpable_of_keepsMeaning {lines : List (List Bytes)} (hne : lines ≠ [])
    (h : ∀ line ∈ lines, LoadsAsWritten line) (hnone : NoneExpired env (loadFile env 0 (file lines) .empty))
    (hdump : ∀ line ∈ dump env (loadFile env 0 (file lines) .empty).db, Codec.Safe (line.map text))
    (hkeeps : KeepsMeaning env lines) (key : Bytes) :
    ((loadFile env 0 (file lines) .empty).db.slot key).Dumpable := by
  have hdumped := dumped_of_ne_nil env hne h []
  have hsame : lines ++ [] ++ [] = lines := by simp
  have heq := hkeeps [] [] (by simp) (by rwa [hsame])
  rw [hsame, load_rewrite h (by simp) (by rwa [hdumped])
    (u := loadAof env ((dump env (dumped env lines []).db).map asRead) .empty)
    (load_dump (dumped env lines []).db)] at heq
  have hkey : (loadAof env ((dump env (dumped env lines []).db).map asRead) .empty).db.slot key = _ :=
    congrFun heq key
  rw [load_dump, hdumped] at hkey
  exact (reloaded_eq_iff _).mp hkey

/-- A rewrite keeps the meaning of a file that can be read exactly if there were lines in
it, and the database they load can be dumped. -/
theorem keepsMeaning_iff {lines : List (List Bytes)} (h : ∀ line ∈ lines, LoadsAsWritten line)
    (hnone : NoneExpired env (loadFile env 0 (file lines) .empty))
    (hdump : ∀ line ∈ dump env (loadFile env 0 (file lines) .empty).db, Codec.Safe (line.map text)) :
    KeepsMeaning env lines ↔
      lines ≠ [] ∧ ∀ key, ((loadFile env 0 (file lines) .empty).db.slot key).Dumpable := by
  constructor
  · intro hkeeps
    have hne : lines ≠ [] := by
      rintro rfl
      exact not_keepsMeaning_nil hkeeps
    exact ⟨hne, dumpable_of_keepsMeaning hne h hnone hdump hkeeps⟩
  · rintro ⟨hne, hdumpable⟩ appended more h' -
    have hdumped := dumped_of_ne_nil env hne h appended
    have hall : ∀ line ∈ lines ++ appended ++ more, LoadsAsWritten line := by
      intro line hline
      rw [List.append_assoc] at hline
      exact (List.mem_append.mp hline).elim (h line) (h' line)
    have hcommands : commands (lines ++ appended ++ more) =
        commands lines ++ commands (appended ++ more) := by simp [commands]
    rw [load_rewrite h h' (by rwa [hdumped]) (u := loadFile env 0 (file lines) .empty)
      (fun key => by rw [hdumped, (reloaded_eq_iff _).mpr (hdumpable key)]), loadFile_file hall, hcommands,
      loadAof_append, loadFile_file h]

theorem keepsMeaning_append :
    (∀ line ∈ [appendLine], LoadsAsWritten line) ∧
      NoneExpired (Env.plain 0) (loadFile (.plain 0) 0 (file [appendLine]) .empty) ∧
      (KeepsMeaning (Env.plain 0) [appendLine] ↔ [appendLine] ≠ [] ∧
        ∀ key, ((loadFile (.plain 0) 0 (file [appendLine]) .empty).db.slot key).Dumpable) :=
  ⟨appendLine_asWritten, appendLine_noneExpired,
    keepsMeaning_iff appendLine_asWritten appendLine_noneExpired appendLine_dump⟩

def rpushLine : List Bytes := [bytes "rpush", bytes "l", bytes "a"]

omit [LinearOrder σ] [Inhabited σ] in
theorem rpushLine_asWritten : ∀ line ∈ [rpushLine], LoadsAsWritten line := by
  intro line hline
  obtain rfl := List.mem_singleton.mp hline
  exact ⟨_, _, rfl, by decide, by decide⟩

theorem rpushLine_slot (env : Env σ) : ∃ l, ∀ k, (loadFile env 0 (file [rpushLine]) .empty).db.slot k =
    if k = bytes "l" then ⟨some (.list l), none⟩ else .empty := by
  rw [loadFile_file rpushLine_asWritten]
  have hexec : ∃ versionMap, (exec env (cmdLine3 "rpush" [some (bytes "l"), some (bytes "a")])
      .empty).2 = final (execRPush env [some (bytes "l"), some (bytes "a")])
        (World.empty.versions versionMap) := exec_command (c := .rPush) rfl rfl
  obtain ⟨versionMap, hw⟩ := hexec
  have hload : loadAof env (commands [rpushLine]) .empty = _ := hw
  rw [hload]
  have hlive : (World.empty.versions (σ := σ) versionMap).db.live env (bytes "l") = none := rfl
  have hempty (k : Bytes) : (World.empty.versions (σ := σ) versionMap).db.slot k = .empty := rfl
  have hevict : (Slot.evict (Slot.empty : Slot σ) env.now).ttl = none := rfl
  refine (wp_iff _ (fun _ (w' : World σ) => ∃ l, ∀ k, w'.db.slot k =
    if k = bytes "l" then ⟨some (.list l), none⟩ else Slot.empty) _).mp ?_
  simp only [execRPush, getOrInitList, getOrInit, wp_bind, wp_getAs, DB.view, text, Option.getD_some,
    hlive, putEntity, wp_modifyDB, wp_pure, addBack, addAof, wp_modify]
  refine ⟨StoredList.newQuickList.add env.lib.grow (some (bytes "a")), fun k => ?_⟩
  by_cases hk : k = bytes "l"
  · simp [hk, hempty, hevict]
  · simp [hk, hempty]

/-- A list is dropped. -/
theorem not_keepsMeaning : ¬ ∀ (env : Env ℤ) lines, (∀ line ∈ lines, LoadsAsWritten line) →
    KeepsMeaning env lines := by
  intro h
  let env : Env ℤ := .plain 0
  obtain ⟨l, hslot⟩ := rpushLine_slot env
  have hnone : NoneExpired env (loadFile env 0 (file [rpushLine]) .empty) := by
    intro k
    rw [hslot]
    split <;> rfl
  have hdump : ∀ line ∈ dump env (loadFile env 0 (file [rpushLine]) .empty).db,
      Codec.Safe (line.map text) := by
    intro line hline
    obtain ⟨k, -, hk⟩ := List.mem_flatMap.mp hline
    have hdata : (loadFile env 0 (file [rpushLine]) .empty).db.data.lookup k = _ :=
      congrArg Slot.data (hslot k)
    have httl : (loadFile env 0 (file [rpushLine]) .empty).db.ttlMap.lookup k = _ :=
      congrArg Slot.ttl (hslot k)
    rw [dumpKey, hdata, httl] at hk
    by_cases he : k = bytes "l"
    · rw [if_pos he] at hk
      exact absurd hk (by simp [entityToCmd])
    · rw [if_neg he] at hk
      exact absurd hk (by simp [Slot.empty])
  have hdumpable := dumpable_of_keepsMeaning (by simp) rpushLine_asWritten hnone hdump
    (h env [rpushLine] rpushLine_asWritten) (bytes "l")
  rw [hslot, if_pos rfl] at hdumpable
  exact hdumpable.2

end Traitor.Database
