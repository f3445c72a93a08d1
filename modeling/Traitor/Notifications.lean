import Traitor.Cluster
import Traitor.Lib.Printf

namespace Traitor.Notifications

open Cluster Lib.Printf MultiNode Schedule

inductive Notice
  | add (id : Bytes)
  | cancel (id : Bytes)
deriving DecidableEq

/-- What a payload is taken for. None is a panic, and the inner none a payload that is
passed over. -/
def decode (payload : Bytes) : Option (Option Notice) :=
  if bytes "jobAdd" <:+: payload then
    ((payload.splitOn 58)[1]?).map fun id => some (.add id)
  else if bytes "jobCancel" <:+: payload then
    ((payload.splitOn 58)[1]?).map fun id => some (.cancel id)
  else some none

def perform (env : Env) (s : Node) : Option Notice → Option Node
  | none => some s
  | some (.add id) => (addJob env s ((getJobInfo env.store id).getD .zero)).map Prod.fst
  | some (.cancel id) => some (removeJob s id)

theorem handleSubEvent_eq (env : Env) (s : Node) (payload : Bytes) :
    handleSubEvent env s payload = (decode payload).bind (perform env s) := by
  rw [handleSubEvent, decode]
  split
  · cases (payload.splitOn 58)[1]? <;> rfl
  · split
    · cases (payload.splitOn 58)[1]? <;> rfl
    · rfl

inductive Site
  | handleAddJob
  | cancelJob
  | handleJobTimeChange
deriving DecidableEq

def Site.payload : Site → Bytes → Bytes
  | .handleAddJob, id => jobAdd id
  | .cancelJob, id => jobCancel id
  | .handleJobTimeChange, id => sprintf (jobAdd id)

def Site.notice : Site → Bytes → Notice
  | .handleAddJob, id => .add id
  | .cancelJob, id => .cancel id
  | .handleJobTimeChange, id => .add id

theorem handleAddJob_publishes {env : Env} {s s' : Node} {j : JobEntity} {payloads : List Bytes}
    (h : handleAddJob env s j = some (s', payloads)) :
    ∀ payload ∈ payloads, payload = Site.handleAddJob.payload j.jobId := by
  rw [handleAddJob, Option.map_eq_some_iff] at h
  obtain ⟨⟨u, ok⟩, -, heq⟩ := h
  obtain ⟨-, rfl⟩ := Prod.mk.inj heq
  intro payload hp
  split at hp
  · exact List.mem_singleton.mp hp
  · cases hp

theorem cancelJob_publishes (s : Node) (key : Bytes) :
    (cancelJob s key).2 = [Site.cancelJob.payload key] := rfl

theorem handleJobTimeChange_publishes {w : World} (hw : w.sprintf = sprintf) {env : Env}
    {s s' : Node} {key : Bytes} {payloads : List Bytes}
    (h : handleJobTimeChange w env s key = some (s', payloads)) :
    payloads = [Site.handleJobTimeChange.payload key] := by
  rw [handleJobTimeChange, hw] at h
  split at h
  · exact (Prod.mk.inj (Option.some.inj h)).2.symm
  · obtain ⟨u, -, heq⟩ := Option.map_eq_some_iff.mp h
    exact (Prod.mk.inj heq).2.symm

/-- No colon is in the id. The id of a cancelled job does not name the other event, and the
format that is applied twice has no directive from the id. -/
def Site.Keeps (site : Site) (id : Bytes) : Prop :=
  58 ∉ id ∧
    match site with
    | .handleAddJob => True
    | .cancelJob => ¬ bytes "jobAdd" <:+: id
    | .handleJobTimeChange => 37 ∉ id

/-- The first of the parts between colons. -/
theorem splitOn_head_iff {s t : Bytes} :
    (s.splitOn 58)[0]? = some t ↔ 58 ∉ t ∧ (s = t ∨ ∃ u, s = t ++ 58 :: u) := by
  constructor
  · intro h
    by_cases hs : 58 ∈ s
    · obtain ⟨a, u, rfl, ha⟩ := List.eq_append_cons_of_mem hs
      rw [List.splitOn_append_cons_self_of_not_mem ha] at h
      obtain rfl := Option.some.inj h
      exact ⟨ha, .inr ⟨u, rfl⟩⟩
    · rw [List.splitOn_eq_singleton hs] at h
      obtain rfl := Option.some.inj h
      exact ⟨hs, .inl rfl⟩
  · rintro ⟨ht, rfl | ⟨u, rfl⟩⟩
    · rw [List.splitOn_eq_singleton ht]
      rfl
    · rw [List.splitOn_append_cons_self_of_not_mem ht]
      rfl

theorem splitOn_head_self_iff {s : Bytes} : (s.splitOn 58)[0]? = some s ↔ 58 ∉ s := by
  rw [splitOn_head_iff]
  simp

theorem decode_jobAdd (s : Bytes) :
    decode (jobAdd s) = ((s.splitOn 58)[0]?).map fun id => some (.add id) := by
  have hinfix : bytes "jobAdd" <:+: jobAdd s := ⟨[], 58 :: s, rfl⟩
  rw [decode, if_pos hinfix]
  rfl

theorem decode_jobCancel (s : Bytes) :
    decode (jobCancel s) = ((s.splitOn 58)[0]?).map fun id =>
      if bytes "jobAdd" <:+: s then some (.add id) else some (.cancel id) := by
  have hadd : bytes "jobAdd" <:+: jobCancel s ↔ bytes "jobAdd" <:+: s := by
    simp [bytes, jobCancel, List.infix_cons_iff, List.cons_prefix_cons]
  have hcancel : bytes "jobCancel" <:+: jobCancel s := ⟨[], 58 :: s, rfl⟩
  rw [decode]
  simp only [hadd, hcancel, if_true]
  split <;> rfl

theorem sprintf_jobAdd (id : Bytes) : sprintf (jobAdd id) = jobAdd (sprintf id) :=
  sprintf_append (by decide) id

/-- The other nodes take the payload for what it is published for if and only if the id has
none of the characters that the formats and the decoder use. -/
theorem decode_payload_iff (site : Site) (id : Bytes) :
    decode (site.payload id) = some (some (site.notice id)) ↔ site.Keeps id := by
  cases site with
  | handleAddJob =>
      rw [Site.payload, Site.notice, Site.Keeps, and_true, decode_jobAdd, ← splitOn_head_self_iff]
      simp
  | cancelJob =>
      rw [Site.payload, Site.notice, Site.Keeps, decode_jobCancel, ← splitOn_head_self_iff]
      by_cases hadd : bytes "jobAdd" <:+: id
      · simp [hadd]
      · simp [hadd]
  | handleJobTimeChange =>
      rw [Site.payload, Site.notice, Site.Keeps, sprintf_jobAdd, decode_jobAdd]
      have hhead : ((sprintf id).splitOn 58)[0]? = some id ↔ 58 ∉ id ∧ 37 ∉ id := by
        rw [splitOn_head_iff]
        apply and_congr_right
        intro hid
        have hno : 58 ∉ sprintf id := fun h => hid (colon_mem_of_sprintf id h)
        rw [← sprintf_eq_self_iff]
        apply or_iff_left
        rintro ⟨u, hu⟩
        exact hno (hu ▸ by simp)
      rw [← hhead]
      simp

/-- An id with a colon in it is cut off there. -/
theorem colon_not_decoded :
    ¬ ∀ (site : Site) (id : Bytes), id ≠ [] →
      decode (site.payload id) = some (some (site.notice id)) := by
  intro h
  have hcut := h .handleAddJob (bytes "a:b") (by decide)
  rw [Site.payload, decode_jobAdd] at hcut
  exact absurd hcut (by decide)

end Traitor.Notifications
