import Traitor.KeySampling
import Traitor.HashReads

namespace Traitor.Database

open Lib.Effects Lib.Strconv Lib.Shards Protocol Dicts

variable {σ β : Type} {env : Env σ} {w : World σ} {s : Finset Bytes} {key : Slice} {rest : List Slice}

theorem map_fst_filterMap_lookup (m : GoMap β) {l : List Bytes} (h : ∀ key ∈ l, key ∈ m) :
    (l.filterMap fun key => (m.lookup key).map (key, ·)).map Prod.fst = l := by
  induction l with
  | nil => rfl
  | cons key l ih =>
      obtain ⟨v, hv⟩ := Finmap.mem_iff.mp (h key List.mem_cons_self)
      have hrest := ih fun k hk => h k (List.mem_cons_of_mem key hk)
      simp only [List.filterMap_cons, hv, Option.map_some, List.map_cons, hrest]

theorem map_fst_order (c : Choices) (m : GoMap β) :
    ((c.order m.keys).filterMap fun key => (m.lookup key).map (key, ·)).map Prod.fst = c.order m.keys :=
  map_fst_filterMap_lookup m fun _ hkey => Finmap.mem_keys.mp ((c.mem_order _ _).mp hkey)

/-- The order in which a loop over a map comes by its entries, where the keys come in the order
that was chosen. -/
def Choices.iteration (c : Choices) : Iteration β where
  order m := (c.order m.keys).filterMap fun key => (m.lookup key).map (key, ·)
  enumerates m := by
    refine ⟨by rw [map_fst_order]; exact c.order_nodup _, fun key v => ?_⟩
    rw [List.mem_filterMap]
    constructor
    · rintro ⟨k, -, hk⟩
      obtain ⟨v', hv', heq⟩ := Option.map_eq_some_iff.mp hk
      cases heq
      exact hv'
    · intro hv
      exact ⟨key, (c.mem_order _ _).mpr (Finmap.mem_keys.mpr (Finmap.mem_iff.mpr ⟨v, hv⟩)),
        by rw [hv, Option.map_some]⟩

/-- A set of strings draws its members as the map that it is made of draws its keys. -/
theorem randomKeys_eq (c : Choices) (m : GoMap β) (limit : Int) :
    randomKeys c m.keys limit = (SimpleDict.mk m).randomKeys c.iteration limit := by
  have hkeys : (c.iteration : Iteration β).keys m = c.order m.keys := map_fst_order c m
  rw [randomKeys, SimpleDict.randomKeys, SimpleDict.len, dictKeys, SimpleDict.keys, hkeys]

theorem exists_map (s : Finset Bytes) : ∃ m : GoMap Unit, m.keys = s := by
  induction s using Finset.induction_on with
  | empty => exact ⟨∅, Finmap.keys_empty⟩
  | insert key s _ ih =>
      obtain ⟨m, rfl⟩ := ih
      refine ⟨m.insert key (), ?_⟩
      ext k
      rw [Finmap.mem_keys, Finmap.mem_insert, Finset.mem_insert, Finmap.mem_keys]

theorem randomKeys_mem_iff (c : Choices) (s : Finset Bytes) (limit : Int) :
    (∃ l, randomKeys c s limit = some l ∧ ∀ key ∈ l, key ∈ s) ↔
      0 ≤ limit ∧ (limit < s.card ∨ s.card = 0 ∨ ([] : Bytes) ∈ s) := by
  obtain ⟨m, rfl⟩ := exists_map s
  simp only [randomKeys_eq, Finmap.mem_keys]
  exact (SimpleDict.mk m).randomKeys_mem_iff c.iteration limit

theorem randomKeys_distinct_iff (c : Choices) (s : Finset Bytes) (limit : Nat) :
    (∃ l, randomKeys c s limit = some l ∧ l.length = min limit s.card ∧ l.Nodup ∧ ∀ key ∈ l, key ∈ s) ↔
      limit < s.card ∨ s.card = 0 := by
  obtain ⟨m, rfl⟩ := exists_map s
  rw [← (SimpleDict.mk m).randomDistinctKeys_samples c.iteration limit]
  simp only [randomKeys_eq, Finmap.mem_keys]
  exact exists_congr fun l => and_congr_right fun _ =>
    ⟨fun h => ⟨h.1, h.2.1, h.2.2⟩, fun h => ⟨h.length, h.nodup, h.mem⟩⟩

theorem popMembers_runs (h : SetAt env w (text key) (some s)) {count : Int} (hcount : popCount rest = some count)
    {popped : List Bytes}
    (hpopped : randomKeys env.choices s (if s.card < count then s.card else count) = some popped) :
    ∃ t, Runs (popMembers env key rest) w (.multiBulk (popped.map some)) t ∧
      t.db = w.db.put (text key) (.set (s \ popped.toFinset)) := by
  have hlog (n : Int) (u : World σ) : ∃ t, Runs (do
      if 0 < n then addAof (cmdLine3 "spop" (key :: rest))
      return .multiBulk (popped.map some)) u (Reply.multiBulk (popped.map some)) t ∧ t.db = u.db := by
    split
    · exact ⟨_, (addAof_runs _ u).bind (.pure _ _), rfl⟩
    · exact ⟨u, .pure _ u, rfl⟩
  obtain ⟨t, hrun, hdb⟩ := hlog (if s.card < count then s.card else count)
    { w with db := w.db.put (text key) (.set (removeMembers s popped).1) }
  refine ⟨t, ?_, by rw [hdb, removeMembers_eq]⟩
  rw [popMembers]
  apply h.getAs.bind
  simp only [hcount, hpopped]
  exact (putEntity_runs _ _ w).bind hrun

def Pops (env : Env σ) (w : World σ) (key : Slice) (rest : List Slice) (s : Finset Bytes) (count : Int) : Prop :=
  ∃ (members : List Bytes) (t : World σ), Runs (execSPop env (key :: rest)) w (.multiBulk (members.map some)) t ∧
    t.db.data.lookup (text key) = some (.set (s \ members.toFinset)) ∧
    (members.length : Int) = min count s.card ∧ members.Nodup ∧ ∀ member ∈ members, member ∈ s

theorem execSPop_eq (hrest : rest.length ≤ 1) : execSPop env (key :: rest) = popMembers env key rest := by
  match rest, hrest with
  | [], _ => rfl
  | [rawCount], _ => rfl

theorem pops_iff (h : SetAt env w (text key) (some s)) (hrest : rest.length ≤ 1) {count : Int}
    (hcount : popCount rest = some count) : Pops env w key rest s count ↔ count < s.card ∨ s.card = 0 := by
  have hpos := popCount_pos hcount
  lift count to Nat using by omega
  have hmin : (if (s.card : Int) < count then (s.card : Int) else count) = (min count s.card : Nat) := by
    split <;> omega
  have hcard : ((count : Int) < s.card ∨ s.card = 0) ↔ min count s.card < s.card ∨ s.card = 0 := by omega
  obtain ⟨popped, hpopped⟩ := randomKeys_some env.choices s (by omega : (0 : Int) ≤ (min count s.card : Nat))
  obtain ⟨t, hrun, hdb⟩ := popMembers_runs h hcount (hmin ▸ hpopped)
  have hlookup : t.db.data.lookup (text key) = some (.set (s \ popped.toFinset)) := by
    rw [hdb, DB.put, Finmap.lookup_insert]
  have hdistinct := randomKeys_distinct_iff env.choices s (min count s.card)
  rw [Pops, execSPop_eq hrest, hcard, ← hdistinct]
  constructor
  · rintro ⟨members, t', hrun', -, hlen, hnodup, hmem⟩
    obtain ⟨hreply, -⟩ := hrun.unique hrun'
    cases multiBulk_inj hreply
    exact ⟨popped, hpopped, by omega, hnodup, hmem⟩
  · rintro ⟨members, hmembers, hlen, hnodup, hmem⟩
    cases hpopped.symm.trans hmembers
    exact ⟨popped, t, hrun, hlookup, by omega, hnodup, hmem⟩

def HasMembers (s : Finset Bytes) : Reply → Prop
  | .bulk (some member) => member ∈ s
  | .multiBulk l => ∀ element ∈ l, ∃ member ∈ s, element = some member
  | .emptyMultiBulk => True
  | _ => False

def AnswersMembers (s : Finset Bytes) (m : Exec σ Reply) (w : World σ) : Prop :=
  ∃ reply t, Runs m w reply t ∧ HasMembers s reply

theorem hasMembers_multiBulk {l : List Bytes} :
    HasMembers s (.multiBulk (l.map some)) ↔ ∀ member ∈ l, member ∈ s := by
  constructor
  · intro h member hmember
    obtain ⟨member', hmember', heq⟩ := h (some member) (List.mem_map_of_mem hmember)
    cases heq
    exact hmember'
  · intro h element helement
    obtain ⟨member, hmember, rfl⟩ := List.mem_map.mp helement
    exact ⟨member, h member hmember, rfl⟩

theorem randMembers_iff (limit : Int) :
    AnswersMembers s (randMembers env s limit) w ↔ 0 ≤ limit ∧ (limit < s.card ∨ s.card = 0 ∨ ([] : Bytes) ∈ s) := by
  rw [← randomKeys_mem_iff env.choices, AnswersMembers, randMembers]
  cases hdraw : randomKeys env.choices s limit with
  | none =>
      apply iff_of_false
      · rintro ⟨reply, t, hrun, -⟩
        exact hrun.not_panics
      · rintro ⟨l, hl, -⟩
        cases hl
  | some l =>
      constructor
      · rintro ⟨reply, t, hrun, hmem⟩
        obtain ⟨rfl, rfl⟩ := Runs.pure_iff.mp hrun
        exact ⟨l, rfl, hasMembers_multiBulk.mp hmem⟩
      · rintro ⟨l', hl', hmem⟩
        cases hl'
        exact ⟨_, w, .pure _ w, hasMembers_multiBulk.mpr hmem⟩

theorem sRandMember_one_iff (h : SetAt env w (text key) (some s)) :
    AnswersMembers s (execSRandMember env [key]) w ↔ 1 < s.card ∨ ([] : Bytes) ∈ s := by
  rw [AnswersMembers, execSRandMember]
  simp only [h.getAs.bind_iff]
  by_cases hcard : (s.card : Int) ≤ 1
  · rw [randomKeys, if_pos hcard, dictKeys, or_iff_right (by omega)]
    rcases Nat.eq_zero_or_pos s.card with hzero | hpos
    · have hnil : env.choices.order s = [] := by
        apply List.eq_nil_iff_forall_not_mem.mpr
        intro key hkey
        rw [env.choices.mem_order, Finset.card_eq_zero.mp hzero] at hkey
        exact absurd hkey (Finset.notMem_empty key)
      rw [hzero, hnil]
      apply iff_of_false
      · rintro ⟨reply, t, hrun, -⟩
        exact hrun.not_panics
      · rw [Finset.card_eq_zero.mp hzero]
        exact Finset.notMem_empty _
    · have hone : s.card = 1 := by omega
      rw [hone]
      constructor
      · rintro ⟨reply, t, hrun, hmem⟩
        obtain ⟨rfl, rfl⟩ := Runs.pure_iff.mp hrun
        exact hmem
      · exact fun hempty => ⟨_, w, .pure _ w, hempty⟩
  · rw [randomKeys, if_neg hcard, if_neg (by decide)]
    refine iff_of_true ?_ (.inl (by omega))
    cases horder : env.choices.order s with
    | nil =>
        obtain ⟨x, hx⟩ : s.Nonempty := Finset.card_pos.mp (by omega)
        rw [← env.choices.mem_order, horder] at hx
        cases hx
    | cons member l =>
        refine ⟨_, w, .pure _ w, ?_⟩
        rw [HasMembers, ← env.choices.mem_order, horder]
        exact List.mem_cons_self

/-- Drawing so many members, or as many times a member for a negative number, draws nothing else. -/
def DrawsMembers (s : Finset Bytes) (count : Int) : Prop :=
  count = 0 ∨ count ≠ -2 ^ 63 ∧ ((count.natAbs : Int) < s.card ∨ s.card = 0 ∨ ([] : Bytes) ∈ s)

theorem drawn_iff {count : Int} (hlow : -2 ^ 63 ≤ count) (hhigh : count < 2 ^ 63) :
    (if 0 < count then 0 ≤ count ∧ (count < s.card ∨ s.card = 0 ∨ ([] : Bytes) ∈ s)
      else if count < 0 then 0 ≤ wrap64 (-count) ∧ (wrap64 (-count) < s.card ∨ s.card = 0 ∨ ([] : Bytes) ∈ s)
      else True) ↔ DrawsMembers s count := by
  rw [DrawsMembers]
  split
  · have hne : ¬ count = 0 := by omega
    have habs : (count.natAbs : Int) = count := by omega
    rw [or_iff_right hne, habs, and_iff_right (by omega), and_iff_right (by omega)]
  · split
    · have hne : ¬ count = 0 := by omega
      rw [or_iff_right hne]
      by_cases hmin : count = -2 ^ 63
      · rw [hmin]
        exact iff_of_false (fun h => absurd h.1 (by decide)) (fun h => h.1 rfl)
      · have habs : (count.natAbs : Int) = -count := by omega
        rw [wrap64_of_lt (by omega) (by omega), habs, and_iff_right (by omega), and_iff_right hmin]
    · exact iff_of_true trivial (.inl (by omega))

theorem sRandMember_count_iff (h : SetAt env w (text key) (some s)) {rawCount : Slice} {count : Int}
    (hcount : parseInt 64 (text rawCount) = some count) :
    AnswersMembers s (execSRandMember env [key, rawCount]) w ↔ DrawsMembers s count := by
  obtain ⟨hlow, hhigh⟩ := parseInt_range hcount
  rw [← drawn_iff hlow hhigh, AnswersMembers, execSRandMember]
  simp only [h.getAs.bind_iff, hcount]
  split
  · exact randMembers_iff count
  · split
    · exact randMembers_iff (wrap64 (-count))
    · exact iff_of_true ⟨_, w, .pure _ w, trivial⟩ trivial

def HasPairs (d : Dict HashValue) : Reply → Prop
  | .multiBulk l => ∃ fields : List Bytes, (∀ field ∈ fields, field ∈ d) ∧
      l = fields.flatMap fun field => [some field, valueOf d field]
  | .emptyMultiBulk => True
  | _ => False

def AnswersPairs (d : Dict HashValue) (m : Exec σ Reply) (w : World σ) : Prop :=
  ∃ reply t, Runs m w reply t ∧ HasPairs d reply

def IsSlice (d : Dict HashValue) (field : Bytes) : Prop := ∃ value, d.lookup field = some (.slice value)

variable {d : Dict HashValue}

theorem withValues_of_slices {fields : List Bytes} (h : ∀ field ∈ fields, IsSlice d field) :
    withValues d fields = some (fields.flatMap fun field => [some field, valueOf d field]) := by
  induction fields with
  | nil => rfl
  | cons field fields ih =>
      obtain ⟨value, hvalue⟩ := h field List.mem_cons_self
      have hrest := ih fun f hf => h f (List.mem_cons_of_mem field hf)
      simp only [withValues, hvalue, hrest, Option.map_some, List.flatMap_cons, valueOf, Option.bind_some,
        HashValue.bytes, List.cons_append, List.nil_append]

theorem slices_of_withValues {fields : List Bytes} {l : List Slice} (h : withValues d fields = some l) :
    ∀ field ∈ fields, IsSlice d field := by
  induction fields generalizing l with
  | nil =>
      intro field hfield
      cases hfield
  | cons first fields ih =>
      rw [withValues] at h
      split at h
      · next value hvalue =>
          obtain ⟨l', hl', -⟩ := Option.map_eq_some_iff.mp h
          intro field hfield
          rcases List.mem_cons.mp hfield with rfl | hfield
          · exact ⟨value, hvalue⟩
          · exact ih hl' field hfield
      · cases h

theorem IsSlice.mem {field : Bytes} (h : IsSlice d field) : field ∈ d.keys := by
  obtain ⟨value, hvalue⟩ := h
  exact Finmap.mem_keys.mpr (Finmap.mem_iff.mpr ⟨.slice value, hvalue⟩)

/-- The members that are drawn are the first ones. -/
theorem mem_randomKeys (c : Choices) (s : Finset Bytes) {limit : Int} {l : List Bytes}
    (hdraw : randomKeys c s limit = some l) (hmem : ∀ key ∈ l, key ∈ s) (key : Bytes) :
    key ∈ l ↔ key ∈ (c.order s).take limit.toNat := by
  rw [randomKeys] at hdraw
  split at hdraw
  · next hle =>
      cases hdraw
      have hlen : (c.order s).length ≤ limit.toNat := by
        rw [← c.length_order s] at hle
        omega
      rw [List.take_of_length_le hlen]
      constructor
      · exact fun hkey => (c.mem_order s key).mpr (hmem key hkey)
      · exact fun hkey => List.mem_append_right _ hkey
  · split at hdraw
    · cases hdraw
    · cases hdraw
      rfl

theorem randFields_members_iff (limit : Int) :
    AnswersMembers d.keys (randFields env d limit false) w ↔
      0 ≤ limit ∧ (limit < d.keys.card ∨ d.keys.card = 0 ∨ ([] : Bytes) ∈ d.keys) := by
  have hsame : randFields env d limit false = randMembers env d.keys limit := by
    rw [randFields, randMembers]
    cases randomKeys env.choices d.keys limit <;> rfl
  rw [hsame, randMembers_iff]

theorem randFields_pairs_iff (limit : Int) :
    AnswersPairs d (randFields env d limit true) w ↔
      (0 ≤ limit ∧ (limit < d.keys.card ∨ d.keys.card = 0 ∨ ([] : Bytes) ∈ d.keys)) ∧
        ∀ field ∈ (env.choices.order d.keys).take limit.toNat, IsSlice d field := by
  rw [← randomKeys_mem_iff env.choices, AnswersPairs, randFields]
  cases hdraw : randomKeys env.choices d.keys limit with
  | none =>
      apply iff_of_false
      · rintro ⟨reply, t, hrun, -⟩
        exact hrun.not_panics
      · rintro ⟨⟨l, hl, -⟩, -⟩
        cases hl
  | some fields =>
      constructor
      · rintro ⟨reply, t, hrun, -⟩
        cases hvalues : withValues d fields with
        | none =>
            simp only [if_true, hvalues] at hrun
            exact absurd hrun Runs.not_panics
        | some l =>
            have hslices := slices_of_withValues hvalues
            have hmem : ∀ field ∈ fields, field ∈ d.keys := fun field hfield => (hslices field hfield).mem
            refine ⟨⟨fields, rfl, hmem⟩, fun field hfield => hslices field ?_⟩
            exact (mem_randomKeys env.choices d.keys hdraw hmem field).mpr hfield
      · rintro ⟨⟨l, hl, hmem⟩, hslices⟩
        cases hl
        have hvalues := @withValues_of_slices d fields fun field hfield =>
          hslices field ((mem_randomKeys env.choices d.keys hdraw hmem field).mp hfield)
        simp only [if_true, hvalues]
        exact ⟨_, w, .pure _ w, fields, fun field hfield => Finmap.mem_keys.mp (hmem field hfield), rfl⟩

theorem hRandField_one_iff (h : HashAt env w (text key) (some d)) :
    AnswersMembers d.keys (execHRandField env [key]) w ↔ DrawsMembers d.keys 1 := by
  rw [← drawn_iff (by decide) (by decide), AnswersMembers, execHRandField, randField]
  simp only [h.getAs.bind_iff]
  rw [if_pos (by decide), if_pos (by decide)]
  exact randFields_members_iff 1

theorem hRandField_count_iff (h : HashAt env w (text key) (some d)) {rawCount : Slice} {count : Int}
    (hcount : parseInt 64 (text rawCount) = some count) :
    AnswersMembers d.keys (execHRandField env [key, rawCount]) w ↔ DrawsMembers d.keys count := by
  obtain ⟨hlow, hhigh⟩ := parseInt_range hcount
  rw [← drawn_iff hlow hhigh, AnswersMembers, execHRandField]
  simp only [hcount, randField, h.getAs.bind_iff]
  split
  · exact randFields_members_iff count
  · split
    · exact randFields_members_iff (wrap64 (-count))
    · exact iff_of_true ⟨_, w, .pure _ w, trivial⟩ trivial

theorem hRandField_values_iff (h : HashAt env w (text key) (some d)) {rawCount option : Slice} {count : Int}
    (hcount : parseInt 64 (text rawCount) = some count) (hoption : toLower (text option) = bytes "withvalues") :
    AnswersPairs d (execHRandField env [key, rawCount, option]) w ↔
      DrawsMembers d.keys count ∧
        ∀ field ∈ (env.choices.order d.keys).take count.natAbs, IsSlice d field := by
  obtain ⟨hlow, hhigh⟩ := parseInt_range hcount
  rw [AnswersPairs, execHRandField]
  simp only [hoption, if_true, hcount, randField, h.getAs.bind_iff]
  have hdrawn := drawn_iff (s := d.keys) hlow hhigh
  split
  · next hpos =>
      have habs : count.natAbs = count.toNat := by omega
      rw [← hdrawn, if_pos hpos, habs]
      exact randFields_pairs_iff count
  · next hpos =>
      split
      · next hneg =>
          rw [if_neg hpos, if_pos hneg] at hdrawn
          rw [← hdrawn]
          refine (randFields_pairs_iff (wrap64 (-count))).trans (and_congr_right fun hdraws => ?_)
          have hmin : count ≠ -2 ^ 63 := by
            rintro rfl
            exact absurd hdraws.1 (by decide)
          have habs : (wrap64 (-count)).toNat = count.natAbs := by
            rw [wrap64_of_lt (by omega) (by omega)]
            omega
          rw [habs]
      · next hneg =>
          obtain rfl : count = 0 := by omega
          refine iff_of_true ⟨_, w, .pure _ w, trivial⟩ ⟨.inl rfl, fun field hfield => ?_⟩
          cases hfield

/-- The keys are listed and drawn right in these cases only, whatever came before, and so are the
members that the commands answer. -/
theorem sampling_iff :
    (∀ d : SimpleDict β,
      (Yields (fun it => some (d.keys it)) (Lists d.m) ↔ d.m.keys.card = 0) ∧
        (∀ limit : Nat, Yields (fun it => d.randomDistinctKeys it limit) (SamplesDistinct d.m limit) ↔
          limit < d.m.keys.card ∨ d.m.keys.card = 0) ∧
        ∀ limit : Int, Yields (fun it => d.randomKeys it limit) (Samples d.m limit) ↔
          0 ≤ limit ∧ (limit < d.m.keys.card ∨ d.m.keys.card = 0 ∨ ([] : Bytes) ∈ d.m)) ∧
    (∀ (maxAlloc : Nat) (shardCount : BitVec 64) (ops : List (Op β)) (r₀ r : ConcurrentDict.Run β),
      ConcurrentDict.started maxAlloc shardCount = some r₀ → r₀.afterAll maxAlloc ops = some r →
      (Yields (fun it => r.dict.keys it) (Lists r.map) ↔
          0 ≤ r.dict.count ∧ (r.dict.count = r.map.keys.card ∨ r.dict.count + 1 = r.map.keys.card)) ∧
        (∀ limit : Nat, Yields (fun draw : Iteration β × List (ConcurrentDict.Draw β) × Iteration Bool =>
            r.dict.randomDistinctKeys draw.1 draw.2.1 draw.2.2 limit) (SamplesDistinct r.map limit) ↔
          r.dict.DrawsDistinct r.map limit) ∧
        ∀ limit : Int, Yields (fun draw : Iteration β × List (ConcurrentDict.Draw β) => r.dict.randomKeys draw.1 draw.2 limit)
          (Samples r.map limit) ↔ r.dict.Draws r.map limit) ∧
    (∀ (env : Env σ) (w : World σ) (key : Slice) (rest : List Slice) (s : Finset Bytes) (count : Int),
      SetAt env w (text key) (some s) → rest.length ≤ 1 → popCount rest = some count →
      (Pops env w key rest s count ↔ count < s.card ∨ s.card = 0)) ∧
    (∀ (env : Env σ) (w : World σ) (key : Slice) (s : Finset Bytes), SetAt env w (text key) (some s) →
      (AnswersMembers s (execSRandMember env [key]) w ↔ 1 < s.card ∨ ([] : Bytes) ∈ s) ∧
        ∀ (rawCount : Slice) (count : Int), parseInt 64 (text rawCount) = some count →
          (AnswersMembers s (execSRandMember env [key, rawCount]) w ↔ DrawsMembers s count)) ∧
    ∀ (env : Env σ) (w : World σ) (key : Slice) (d : Dict HashValue), HashAt env w (text key) (some d) →
      (AnswersMembers d.keys (execHRandField env [key]) w ↔ DrawsMembers d.keys 1) ∧
        ∀ (rawCount : Slice) (count : Int), parseInt 64 (text rawCount) = some count →
          (AnswersMembers d.keys (execHRandField env [key, rawCount]) w ↔ DrawsMembers d.keys count) ∧
          ∀ option : Slice, toLower (text option) = bytes "withvalues" →
            (AnswersPairs d (execHRandField env [key, rawCount, option]) w ↔
              DrawsMembers d.keys count ∧
                ∀ field ∈ (env.choices.order d.keys).take count.natAbs, IsSlice d field) := by
  refine ⟨fun d => ⟨d.keys_iff, fun limit => ?_, fun limit => ?_⟩, ?_, ?_, ?_, ?_⟩
  · exact yields_iff_of_each fun it => d.randomDistinctKeys_samples it limit
  · exact yields_iff_of_each fun it => d.randomKeys_samples it limit
  · intro maxAlloc shardCount ops r₀ r hstart hrun
    have hrefines := ConcurrentDict.Run.refines_afterAll (ConcurrentDict.started_refines hstart) hrun
    exact ⟨hrefines.keys_iff, hrefines.randomDistinctKeys_iff, hrefines.randomKeys_iff⟩
  · exact fun env w key rest s count hat hrest hcount => pops_iff hat hrest hcount
  · exact fun env w key s hat =>
      ⟨sRandMember_one_iff hat, fun rawCount count hcount => sRandMember_count_iff hat hcount⟩
  · exact fun env w key d hat =>
      ⟨hRandField_one_iff hat, fun rawCount count hcount =>
        ⟨hRandField_count_iff hat hcount, fun option hoption => hRandField_values_iff hat hcount hoption⟩⟩

theorem sampling_iff_oneMember :
    (∃ r : ConcurrentDict.Run Unit, ConcurrentDict.started (2 ^ 48) 16#64 = some r ∧
      Yields (fun it => r.dict.keys it) (Lists r.map)) ∧
    ¬ Pops (Env.plain 0) oneMember (some (bytes "k")) [] {bytes "a"} 1 ∧
    ¬ AnswersMembers {bytes "a"} (execSRandMember (Env.plain 0) [some (bytes "k")]) oneMember := by
  obtain ⟨-, hdict, hpop, hrand, -⟩ := sampling_iff (σ := ℤ) (β := Unit)
  have hat : SetAt (Env.plain 0) oneMember (bytes "k") (some {bytes "a"}) := ⟨oneMember_data, rfl⟩
  refine ⟨?_, ?_, ?_⟩
  · have hstart : ∃ r : ConcurrentDict.Run Unit, ConcurrentDict.started (2 ^ 48) 16#64 = some r ∧
        r.dict.count = 0 ∧ r.map = ∅ := by
      rw [ConcurrentDict.started, ConcurrentDict.makeConcurrentDict, if_pos (by decide)]
      exact ⟨_, rfl, rfl, rfl⟩
    obtain ⟨r, hr, hcount, hmap⟩ := hstart
    refine ⟨r, hr, (hdict (2 ^ 48) 16#64 [] r r hr rfl).1.mpr ?_⟩
    rw [hcount, hmap, Finmap.keys_empty, Finset.card_empty]
    decide
  · rw [hpop _ _ _ [] _ 1 hat (by decide) rfl]
    decide
  · rw [(hrand _ _ _ _ hat).1]
    decide

/-- The only key is listed after an empty string. -/
theorem only_key_listed_twice :
    ¬ ∀ d : SimpleDict Unit, Yields (fun it => some (d.keys it)) (Lists d.m) := by
  intro h
  have hcard := (SimpleDict.mk (Finmap.insert [97] () ∅)).keys_iff.mp (h _)
  rw [ConcurrentDict.card_insert, Finmap.lookup_empty, if_neg (by decide)] at hcard
  exact Nat.succ_ne_zero _ hcard

end Traitor.Database
