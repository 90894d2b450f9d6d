import Tob.Library.UInt64Order
import Tob.Book.Window

/-!
# The cached end of the window

Any sequence of `update`, `erase` and `clear` uses its iterators where they may be used, and leaves
`mEnd` on the level with exactly `mDepth` levels before it, if there is one.
-/

open OrderedContainer

namespace Tob

inductive MapCall (κ ν : Type) where
  | update (key : κ) (value : ν)
  | erase (key : κ)
  | clear
  deriving DecidableEq, Repr

namespace LimitedMap

variable {κ ν : Type} [DecidableEq κ] {lt : κ → κ → Prop} [DecidableRel lt]
  [IsStrictTotalOrder κ lt]

/-- `end()` up to `mDepth` levels, and from there on the level with `mDepth` levels before it. -/
structure EndAtDepth (m : LimitedMap κ ν lt) : Prop where
  small : m.mMap.size ≤ m.mDepth → m.mEnd = none
  large : m.mDepth < m.mMap.size → ∃ k ∈ m.mMap.keys, m.mEnd = some k ∧
    (m.mMap.keys.filter fun k' ↦ lt k' k).length = m.mDepth

omit [DecidableEq κ] in
theorem Window.endAtDepth {m : LimitedMap κ ν lt} (hm : m.Window) : m.EndAtDepth := by
  have hlen := m.mMap.length_keys
  constructor
  · intro hsize
    rw [hm, List.getElem?_eq_none (by omega)]
  · intro hsize
    -- the level of rank `mDepth` has that many levels before it
    have hd : m.mDepth < m.mMap.keys.length := by omega
    have hrank := List.getElem?_eq_getElem hd
    refine ⟨m.mMap.keys[m.mDepth], List.getElem_mem hd, hm.trans hrank, ?_⟩
    rw [filter_lt_eq_take m.mMap.sorted_keys hrank, List.length_take]
    omega

variable [Zero ν]

def call (m : LimitedMap κ ν lt) : MapCall κ ν → Option (LimitedMap κ ν lt)
  | .update key value => m.update key value
  | .erase key => m.erase key
  | .clear => some m.clear

def run (m : LimitedMap κ ν lt) : List (MapCall κ ν) → Option (LimitedMap κ ν lt)
  | [] => some m
  | c :: calls => (m.call c).bind fun m ↦ m.run calls

theorem run_concat (m : LimitedMap κ ν lt) (calls : List (MapCall κ ν)) (c : MapCall κ ν) :
    m.run (calls ++ [c]) = (m.run calls).bind fun m ↦ m.call c := by
  induction calls generalizing m with
  | nil =>
      rw [List.nil_append, run, run, Option.bind_some]
      cases m.call c <;> rfl
  | cons first calls ih =>
      rw [List.cons_append, run, run, Option.bind_assoc]
      exact congrArg _ (funext ih)

/-- One operation is defined, keeps the window, and does not leave an erased key in it. -/
theorem Window.call {m : LimitedMap κ ν lt} (hm : m.Window) (c : MapCall κ ν) :
    ∃ m', m.call c = some m' ∧ m'.Window ∧ m'.mDepth = m.mDepth ∧
      ∀ key, c = .erase key → key ∉ m'.mMap.keys ∧ m'.mEnd ≠ some key := by
  cases c with
  | update key value =>
      rcases update_writes hm key value with ⟨m', he, h⟩
      exact ⟨m', he, h.window, h.depth, fun _ hc ↦ by cases hc⟩
  | clear => exact ⟨m.clear, rfl, window_clear m, rfl, fun _ hc ↦ by cases hc⟩
  | erase key =>
      rcases erase_leaves hm key with ⟨m', he, h⟩
      refine ⟨m', he, h.window, h.depth, fun key' hc ↦ ?_⟩
      cases hc
      have hgone : key ∉ m'.mMap.keys := by
        rw [h.keys, List.mem_filter]
        simp
      -- the iterator is on one of the keys that are left
      refine ⟨hgone, fun hend ↦ hgone ?_⟩
      have hwindow : m'.mEnd = m'.mMap.keys[m'.mDepth]? := h.window
      exact List.mem_of_getElem? (hwindow.symm.trans hend)

theorem Window.run {m : LimitedMap κ ν lt} (hm : m.Window) (calls : List (MapCall κ ν)) :
    ∃ m', m.run calls = some m' ∧ m'.Window ∧ m'.mDepth = m.mDepth := by
  induction calls generalizing m with
  | nil => exact ⟨m, rfl, hm, rfl⟩
  | cons c calls ih =>
      rcases hm.call c with ⟨m₁, he, hm₁, hd₁, -⟩
      rcases ih hm₁ with ⟨m', he', hm', hd'⟩
      exact ⟨m', by rw [LimitedMap.run, he, Option.bind_some, he'], hm', hd'.trans hd₁⟩

/-- From an empty map on, no operation uses an iterator where that is undefined.  Behind every one
of them `mEnd` is where the depth says, and not at what has just been erased. -/
theorem run_endAtDepth (depth : Nat) (calls : List (MapCall κ ν)) (c : MapCall κ ν) :
    ∃ m m' : LimitedMap κ ν lt, (new depth).run calls = some m ∧ m.call c = some m' ∧
      (new depth).run (calls ++ [c]) = some m' ∧
      m.mDepth = depth ∧ m.EndAtDepth ∧ m'.mDepth = depth ∧ m'.EndAtDepth ∧
      ∀ key, c = .erase key → key ∉ m'.mMap.keys ∧ m'.mEnd ≠ some key := by
  have hnew : (new depth : LimitedMap κ ν lt).Window := window_new depth
  rcases hnew.run calls with ⟨m, hrun, hm, hdepth⟩
  rcases hm.call c with ⟨m', hcall, hm', hdepth', herased⟩
  have hconcat : (new depth).run (calls ++ [c]) = some m' := by
    rw [run_concat, hrun, Option.bind_some, hcall]
  exact ⟨m, m', hrun, hcall, hconcat, hdepth, hm.endAtDepth, hdepth'.trans hdepth,
    hm'.endAtDepth, herased⟩

/-- The erased key is the one at the window's end. -/
theorem run_endAtDepth_example :
    let calls : List (MapCall UInt64 UInt64) := [.update 5 2, .update 3 1, .update 8 4]
    ∃ m m' : LimitedMap UInt64 UInt64 (· < ·), (new 1).run calls = some m ∧ m.mEnd = some 5 ∧
      m.call (.erase 5) = some m' ∧ m'.EndAtDepth ∧ m'.mEnd ≠ some 5 := by
  intro calls
  have hrun : ∃ m m' : LimitedMap UInt64 UInt64 (· < ·), _ := run_endAtDepth 1 calls (.erase 5)
  rcases hrun with ⟨m, m', hrun, hcall, -, -, -, -, hend', herased⟩
  have hend : ((new 1 : LimitedMap UInt64 UInt64 (· < ·)).run calls).map mEnd = some (some 5) := by
    decide
  rw [hrun, Option.map_some, Option.some_inj] at hend
  exact ⟨m, m', hrun, hend, hcall, hend', (herased 5 rfl).2⟩

end LimitedMap

end Tob
