import Mathlib.Data.Finmap

namespace Traitor.Lib.FiniteMaps

variable {K V : Type} [DecidableEq K] {m : Finmap fun _ : K => V} {k : K} {v : V}

theorem lookup_insert_ite (m : Finmap fun _ : K => V) (k : K) (v : V) (k' : K) :
    (m.insert k v).lookup k' = if k' = k then some v else m.lookup k' := by
  split
  · next hk => rw [hk, Finmap.lookup_insert]
  · next hk => rw [Finmap.lookup_insert_of_ne _ hk]

theorem lookup_erase_ite (m : Finmap fun _ : K => V) (k k' : K) :
    (m.erase k).lookup k' = if k' = k then none else m.lookup k' := by
  split
  · next hk => rw [hk, Finmap.lookup_erase]
  · next hk => rw [Finmap.lookup_erase_ne hk]

theorem insert_held (h : m.lookup k = some v) : m.insert k v = m := by
  apply Finmap.ext_lookup
  intro k'
  rw [lookup_insert_ite]
  split
  · next hk => rw [hk, h]
  · rfl

theorem erase_absent (h : m.lookup k = none) : m.erase k = m := by
  apply Finmap.ext_lookup
  intro k'
  rw [lookup_erase_ite]
  split
  · next hk => rw [hk, h]
  · rfl

theorem erase_insert (m : Finmap fun _ : K => V) (k : K) (v : V) : (m.insert k v).erase k = m.erase k := by
  apply Finmap.ext_lookup
  intro k'
  rw [lookup_erase_ite, lookup_erase_ite, lookup_insert_ite]
  split <;> rfl

end Traitor.Lib.FiniteMaps
