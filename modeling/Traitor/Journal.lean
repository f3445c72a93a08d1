import Traitor.Reads

namespace Traitor.Database

open Lib.Effects Lib.Strconv Protocol

variable {σ α β : Type} (env : Env σ)

def Silent (m : Exec σ α) : Prop := ∀ w, wp m (fun r w' => r.isSome ∧ w'.aof = w.aof) w

namespace Silent

theorem pure (a : α) : Silent (Pure.pure a : Exec σ α) := fun _ => ⟨rfl, rfl⟩

theorem modifyDB (f : DB σ → DB σ) : Silent (modifyDB f) := fun _ => ⟨rfl, rfl⟩

theorem get : Silent (MonadState.get : Exec σ (World σ)) := fun _ => ⟨rfl, rfl⟩

theorem bind {m : Exec σ α} {f : α → Exec σ β} (hm : Silent m) (hf : ∀ a, Silent (f a)) :
    Silent (m >>= f) := by
  intro w
  rw [wp_bind]
  apply wp_mono (hm w)
  intro r w' h
  cases r with
  | none => simp at h
  | some a => exact wp_mono (hf a w') fun _ _ h' => ⟨h'.1, h'.2.trans h.2⟩

theorem map {m : Exec σ α} {f : α → β} (hm : Silent m) : Silent (f <$> m) := by
  intro w
  rw [wp_map]
  exact wp_mono (hm w) fun r _ h => ⟨by simpa using h.1, h.2⟩

end Silent

def Done (kind : List CmdLine → Prop) (w : World σ) (r : Option Reply) (w' : World σ) : Prop :=
  ∃ reply lines, r = some reply ∧ isErrorReply reply = false ∧ w'.aof = w.aof ++ lines ∧ kind lines

def Commits (kind : List CmdLine → Prop) (m : Exec σ Reply) : Prop :=
  ∀ w, wp m (fun r w' => Done kind w r w') w

namespace Commits

variable {kind : List CmdLine → Prop}

theorem pure {reply : Reply} (h : isErrorReply reply = false) (hkind : kind []) :
    Commits kind (Pure.pure reply : Exec σ Reply) :=
  fun w => ⟨reply, [], rfl, h, (List.append_nil w.aof).symm, hkind⟩

theorem bind {m : Exec σ α} {f : α → Exec σ Reply} (hm : Silent m) (hf : ∀ a, Commits kind (f a)) :
    Commits kind (m >>= f) := by
  intro w
  rw [wp_bind]
  apply wp_mono (hm w)
  intro r w' h
  cases r with
  | none => simp at h
  | some a =>
      apply wp_mono (hf a w')
      intro _ _ hdone
      rw [Done, h.2] at hdone
      exact hdone

theorem log {line : CmdLine} {f : PUnit → Exec σ Reply}
    (hf : Commits (fun lines => kind (line :: lines)) (f ⟨⟩)) : Commits kind (addAof line >>= f) := by
  intro w
  rw [wp_bind, wp_addAof]
  refine wp_mono (hf _) fun r w' ⟨reply, lines, hr, he, haof, hkind⟩ => ?_
  exact ⟨reply, line :: lines, hr, he, by rw [haof, List.append_assoc]; rfl, hkind⟩

theorem put {f : PUnit → Exec σ Reply} (g : DB σ → DB σ) (hf : Commits kind (f ⟨⟩)) :
    Commits kind (modifyDB g >>= f) := bind (.modifyDB g) fun _ => hf

end Commits

def JournalsAt (kind : List CmdLine → Prop) (m : Exec σ Reply) (w : World σ) : Prop :=
  wp m (fun r w' => Quiet env w w' ∨ Done kind w r w') w

def Journals (kind : List CmdLine → Prop) (m : Exec σ Reply) : Prop :=
  ∀ w, JournalsAt env kind m w

namespace Journals

variable {env} {kind : List CmdLine → Prop} {m : Exec σ Reply}

theorem of_moves (h : Moves (Quiet env) m) : Journals env kind m :=
  fun w => wp_mono (h w) fun _ _ => .inl

theorem of_commits (h : Commits kind m) : Journals env kind m :=
  fun w => wp_mono (h w) fun _ _ => .inr

@[simp] theorem pure (reply : Reply) : Journals env kind (Pure.pure reply) := of_moves (.pure reply)

@[simp] theorem panics : Journals env kind Lib.Effects.panics := of_moves .panics

theorem bind {m : Exec σ α} {f : α → Exec σ Reply} (hm : Moves (Quiet env) m)
    (hf : ∀ a, Journals env kind (f a)) : Journals env kind (m >>= f) := by
  intro w
  rw [JournalsAt, wp_bind]
  apply wp_mono (hm w)
  intro r w' h
  cases r with
  | none => exact .inl h
  | some a =>
      apply wp_mono (hf a w')
      intro r w'' h'
      rcases h' with hquiet | hdone
      · exact .inl (trans_of (Quiet env) h hquiet)
      · rw [Done, h.1] at hdone
        exact .inr hdone

/-- The value that is found is the one of the key. -/
theorem getAs {view : Entity σ → Option α} {entity : α → Entity σ}
    (hview : ∀ e a, view e = some a → e = entity a) {key : Bytes}
    {f : Except Reply (Option α) → Exec σ Reply} (herror : ∀ e, Journals env kind (f (.error e)))
    (hnone : Journals env kind (f (.ok none)))
    (hsome : ∀ a w, w.db.data.lookup key = some (entity a) →
      JournalsAt env kind (f (.ok (some a))) w) :
    Journals env kind (getAs env view key >>= f) := by
  intro w
  have hquiet : Quiet env w { w with db := w.db.evict env key } := ⟨rfl, DB.keeps_evict w.db key⟩
  have hrest : JournalsAt env kind (f (w.db.view env view key))
      { w with db := w.db.evict env key } := by
    cases hv : w.db.view env view key with
    | error e => exact herror e _
    | ok o =>
        cases o with
        | none => exact hnone _
        | some a =>
            obtain ⟨e, hlive, he⟩ := DB.live_of_view env hv
            apply hsome a _
            rw [DB.lookup_evict env hlive, hview e a he]
  rw [JournalsAt, wp_bind, wp_getAs]
  exact wp_mono hrest fun r w' h => h.imp_left fun h => trans_of (Quiet env) hquiet h

theorem getOrInit {view : Entity σ → Option α} {entity : α → Entity σ} {make : α} {key : Bytes}
    {f : Except Reply α → Exec σ Reply} (herror : ∀ e, Journals env kind (f (.error e)))
    (hsome : ∀ a, Journals env kind (f (.ok a))) (hnew : Commits kind (f (.ok make))) :
    Journals env kind (getOrInit env view entity make key >>= f) := by
  rw [Database.getOrInit, bind_assoc]
  apply bind (getAs_moves env view key)
  intro r
  split
  · exact herror _
  · exact hsome _
  · rw [bind_assoc]
    exact of_commits (.put _ hnew)

end Journals

end Traitor.Database
