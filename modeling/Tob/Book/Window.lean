import Tob.Book.LimitedMap

/-!
# The window invariant

`mEnd` is the iterator of rank `mDepth`, which is `end()` when there are no more levels than that.
Every operation keeps it, so no iterator is ever used where that is undefined.
-/

open OrderedContainer

namespace Tob.LimitedMap

variable {κ ν : Type} [DecidableEq κ] {lt : κ → κ → Prop} [DecidableRel lt]
  [IsStrictTotalOrder κ lt]

/-- The cached iterator has rank `mDepth`. -/
def Window (m : LimitedMap κ ν lt) : Prop := m.mEnd = m.mMap.keys[m.mDepth]?

omit [DecidableEq κ] [DecidableRel lt] [IsStrictTotalOrder κ lt] in
theorem window_new (depth : Nat) : (new depth : LimitedMap κ ν lt).Window := rfl

omit [DecidableEq κ] [DecidableRel lt] [IsStrictTotalOrder κ lt] in
theorem window_clear (m : LimitedMap κ ν lt) : m.clear.Window := rfl

omit [DecidableRel lt] in
theorem visible_eq_take {m : LimitedMap κ ν lt} (hm : m.Window) :
    m.visible = m.mMap.entries.take m.mDepth := by
  rw [visible, hm, OrderedMap.before_eq_take]

/-- What a successful operation leaves alone or writes: the window, the depth and the values. -/
structure Writes (m m' : LimitedMap κ ν lt) (key : κ) (value : Option ν) : Prop where
  window : m'.Window
  depth : m'.mDepth = m.mDepth
  values : ∀ k, m'.valueAt k = if k = key then value else m.valueAt k

/-- What a successful operation leaves behind: the window, the depth, the keys and the payloads. -/
structure Leaves (m m' : LimitedMap κ ν lt) (keys : List κ) (payload : κ → Option (Payload ν)) :
    Prop where
  window : m'.Window
  depth : m'.mDepth = m.mDepth
  keys : m'.mMap.keys = keys
  lookup : ∀ k, m'.mMap.lookup k = payload k

theorem erase_leaves {m : LimitedMap κ ν lt} (hm : m.Window) (key : κ) :
    ∃ m', m.erase key = some m' ∧ Leaves m m' (m.mMap.keys.filter fun k ↦ k ≠ key)
      fun k ↦ if k = key then none else m.mMap.lookup k := by
  unfold erase
  by_cases hk : key ∈ m.mMap.keys
  · have hkeys := m.mMap.keys_erase key
    have hlook := m.mMap.lookup_erase key
    rw [OrderedMap.find, if_pos hk]
    simp only
    by_cases hsize : m.mMap.size - 1 ≤ m.mDepth
    · rw [if_pos hsize]
      refine ⟨_, rfl, ?_, rfl, hkeys, hlook⟩
      have hlen : (m.mMap.keys.filter fun a ↦ a ≠ key).length < m.mMap.keys.length :=
        List.length_filter_lt_length_iff_exists.mpr ⟨key, hk, by simp⟩
      rw [OrderedMap.length_keys] at hlen
      change none = (m.mMap.erase key).keys[m.mDepth]?
      rw [hkeys, List.getElem?_eq_none (by omega)]
    · rw [if_neg hsize]
      have hd : m.mDepth < m.mMap.keys.length := by rw [OrderedMap.length_keys]; omega
      have hend : m.mEnd = some m.mMap.keys[m.mDepth] := by
        rw [hm, List.getElem?_eq_getElem hd]
      have hrank := List.getElem?_eq_getElem hd
      -- either way the step leaves the iterator on the key of rank `mDepth`
      rw [hend, OrderedMap.keyAt_of_mem (List.getElem_mem hd), Option.bind_some,
        OrderedMap.step_of_erase hk hrank, Option.bind_some]
      exact ⟨_, rfl, rfl, rfl, hkeys, hlook⟩
  · rw [OrderedMap.find, if_neg hk]
    refine ⟨m, rfl, hm, rfl, ?_, fun k ↦ ?_⟩
    · rw [eq_comm, List.filter_eq_self]
      intro k hmem
      simpa using ne_of_mem_of_not_mem hmem hk
    · split
      · rename_i h
        rw [h, OrderedMap.lookup_eq_none_iff.mpr hk]
      · rfl

theorem erase_writes {m : LimitedMap κ ν lt} (hm : m.Window) (key : κ) :
    ∃ m', m.erase key = some m' ∧ Writes m m' key none := by
  rcases erase_leaves hm key with ⟨m', he, h⟩
  refine ⟨m', he, h.window, h.depth, fun k ↦ ?_⟩
  rw [valueAt, h.lookup]
  split <;> rfl

variable [Zero ν]

/-- Writing to a key that is there moves its value to its previous value. -/
theorem update_overwrites {m : LimitedMap κ ν lt} (hm : m.Window) {key : κ} (value : ν)
    (hk : key ∈ m.mMap.keys) :
    ∃ m', m.update key value = some m' ∧ Leaves m m' m.mMap.keys fun k ↦
      if k = key then (m.mMap.lookup k).map fun p ↦ ⟨value, p.value⟩ else m.mMap.lookup k := by
  unfold update
  rw [OrderedMap.insert_of_mem _ hk]
  refine ⟨_, rfl, ?_, rfl, OrderedMap.keys_modify .., fun k ↦ OrderedMap.lookup_modify ..⟩
  rw [Window, OrderedMap.keys_modify]
  exact hm

/-- Writing to a new key inserts it, and resets the previous value of the level that is then right
behind the window. -/
theorem update_inserts {m : LimitedMap κ ν lt} (hm : m.Window) {key : κ} (value : ν)
    (hk : key ∉ m.mMap.keys) :
    ∃ m', m.update key value = some m' ∧ Leaves m m' (m.mMap.keys.orderedInsert lt key) fun k ↦
      if k = key then some (.ofValue value)
      else if (m.mMap.keys.orderedInsert lt key)[m.mDepth]? = some k then
        (m.mMap.lookup k).map fun p ↦ ⟨p.value, 0⟩
      else m.mMap.lookup k := by
  rcases OrderedMap.insert_of_not_mem (Payload.ofValue value) hk with ⟨map, hins, hkeys, hlook⟩
  unfold update
  rw [hins, ← hkeys]
  simp only
  have hlen : map.keys.length = m.mMap.keys.length + 1 := by
    rw [hkeys, List.orderedInsert_length]
  have hsizes := map.length_keys
  by_cases hsize : map.size ≤ m.mDepth
  · -- nothing is behind the window yet
    have hnone : map.keys[m.mDepth]? = none := List.getElem?_eq_none (by omega)
    rw [if_pos hsize]
    refine ⟨_, rfl, hnone.symm, rfl, rfl, fun k ↦ ?_⟩
    rw [hlook, hnone, if_neg (by simp : ¬ none = some k)]
  · rw [if_neg hsize]
    have hd : m.mDepth < map.keys.length := by omega
    have hrank := List.getElem?_eq_getElem hd
    have hmem : map.keys[m.mDepth] ∈ map.keys := List.getElem_mem hd
    -- the reset that ends both ways through the function
    have hreset : Leaves m
        { m with
          mMap := map.modify map.keys[m.mDepth] fun p ↦ ⟨p.value, 0⟩
          mEnd := some map.keys[m.mDepth] } map.keys fun k ↦
          if k = key then some (.ofValue value)
          else if map.keys[m.mDepth]? = some k then
            (m.mMap.lookup k).map fun p ↦ ⟨p.value, 0⟩
          else m.mMap.lookup k := by
      refine ⟨?_, rfl, OrderedMap.keys_modify .., fun k ↦ ?_⟩
      · rw [Window, OrderedMap.keys_modify, hrank]
      · rw [OrderedMap.lookup_modify, hlook, hrank]
        by_cases hkey : k = key
        · rw [if_pos hkey, if_pos hkey]
          split <;> rfl
        · rw [if_neg hkey, if_neg hkey]
          simp only [Option.some_inj, eq_comm]
    by_cases hend : m.mEnd = none
    · -- the old size is exactly the depth: the last key is the one of rank `mDepth`
      have hold : m.mMap.keys.length ≤ m.mDepth := List.getElem?_eq_none_iff.mp (hm ▸ hend)
      have hprev : map.prev none = some (some map.keys[m.mDepth]) := by
        rw [OrderedMap.prev, prevKey_end map.nodup_keys (i := m.mDepth) (by omega), hrank]; rfl
      rw [if_pos hend, hprev, Option.bind_some, OrderedMap.keyAt_of_mem hmem,
        Option.bind_some]
      by_cases hkey : map.keys[m.mDepth] = key
      · rw [if_pos hkey]
        refine ⟨_, rfl, hrank.symm, rfl, rfl, fun k ↦ ?_⟩
        rw [hlook, hrank, hkey]
        by_cases hkk : k = key
        · rw [if_pos hkk, if_pos hkk]
        · rw [if_neg hkk, if_neg hkk, if_neg fun h ↦ hkk (Option.some_inj.mp h).symm]
      · rw [if_neg hkey, OrderedMap.modifyAt_of_mem _ hmem, Option.bind_some]
        exact ⟨_, rfl, hreset⟩
    · rw [if_neg hend]
      rcases Option.ne_none_iff_exists'.mp hend with ⟨e, he⟩
      have hold : m.mMap.keys[m.mDepth]? = some e := hm ▸ he
      have hemem : e ∈ map.keys := by
        rw [hkeys, List.mem_orderedInsert]
        exact .inr (List.mem_of_getElem? hold)
      rw [he, OrderedMap.keyAt_of_mem hemem, Option.bind_some]
      have hstep := OrderedMap.step_of_insert hk hkeys hold
      rw [hrank] at hstep
      rw [hstep, Option.bind_some, OrderedMap.modifyAt_of_mem _ hmem, Option.bind_some]
      exact ⟨_, rfl, hreset⟩

theorem update_writes {m : LimitedMap κ ν lt} (hm : m.Window) (key : κ) (value : ν) :
    ∃ m', m.update key value = some m' ∧ Writes m m' key (some value) := by
  by_cases hk : key ∈ m.mMap.keys
  · rcases update_overwrites hm value hk with ⟨m', he, h⟩
    refine ⟨m', he, h.window, h.depth, fun k ↦ ?_⟩
    rw [valueAt, h.lookup]
    split
    · rename_i hkey
      rcases OrderedMap.mem_keys_iff.mp hk with ⟨p, hp⟩
      rw [hkey, hp]; rfl
    · rfl
  · rcases update_inserts hm value hk with ⟨m', he, h⟩
    refine ⟨m', he, h.window, h.depth, fun k ↦ ?_⟩
    rw [valueAt, h.lookup]
    split
    · rfl
    · split
      · rw [Option.map_map]; rfl
      · rfl

end Tob.LimitedMap
