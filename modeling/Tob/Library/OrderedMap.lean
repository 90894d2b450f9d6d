import Mathlib

/-!
# Ordered maps with stable iterators

An ordered associative container in the manner of `std::map`: entries sorted by a strict total
order on the keys, and iterators that survive every insertion and every erasure of another key.
An iterator is therefore the key of the node it points to, or `none` for `end()`.  Stepping and
dereferencing are partial: `none` stands for undefined behaviour.
-/

namespace OrderedContainer

variable {κ : Type} {ν : Type}

/-- An iterator: the key of its node, or `none` for `end()`. -/
abbrev Iter (κ : Type) := Option κ

/-! ## Stepping through a list of keys -/

section Stepping

variable [DecidableEq κ]

/-- `++it` for an iterator on `k`. -/
def nextKey : List κ → κ → Option (Iter κ)
  | [], _ => none
  | a :: rest, k => if a = k then some rest.head? else nextKey rest k

/-- `--it`: the key whose successor is `it`. -/
def prevKey : List κ → Iter κ → Option κ
  | [], _ => none
  | a :: rest, it => if rest.head? = it then some a else prevKey rest it

theorem nextKey_getElem? {keys : List κ} (hn : keys.Nodup) {i : Nat} {k : κ}
    (hi : keys[i]? = some k) : nextKey keys k = some keys[i + 1]? := by
  induction keys generalizing i with
  | nil => simp at hi
  | cons a rest ih =>
      obtain ⟨ha, hn⟩ := List.nodup_cons.mp hn
      cases i with
      | zero =>
          have hk : a = k := by simpa using hi
          simp [nextKey, hk, List.head?_eq_getElem?]
      | succ i =>
          have hi : rest[i]? = some k := by simpa using hi
          have hne : a ≠ k := fun h ↦ ha (h ▸ List.mem_of_getElem? hi)
          simpa [nextKey, hne] using ih hn hi

theorem prevKey_getElem? {keys : List κ} (hn : keys.Nodup) {i : Nat} (hi : i < keys.length) :
    prevKey keys keys[i + 1]? = keys[i]? := by
  induction keys generalizing i with
  | nil => simp at hi
  | cons a rest ih =>
      obtain ⟨-, hn⟩ := List.nodup_cons.mp hn
      cases i with
      | zero => simp [prevKey, List.head?_eq_getElem?]
      | succ i =>
          have hi : i < rest.length := by simpa using hi
          have hne : rest.head? ≠ rest[i + 1]? := by
            rw [List.head?_eq_getElem?]
            intro h
            have hidx := (List.getElem?_inj (by omega) hn).mp h
            omega
          simpa [prevKey, hne] using ih hn hi

theorem prevKey_end {keys : List κ} (hn : keys.Nodup) {i : Nat} (hi : keys.length = i + 1) :
    prevKey keys none = keys[i]? := by
  rw [← prevKey_getElem? hn (by omega), List.getElem?_eq_none (by omega)]

-- No key has the first one for a successor.
theorem prevKey_of_not_mem_tail {keys : List κ} {a : κ} (ha : a ∉ keys.tail) :
    prevKey keys (some a) = none := by
  induction keys with
  | nil => rfl
  | cons b rest ih =>
      rw [List.tail_cons] at ha
      rw [prevKey, if_neg fun h ↦ ha (List.mem_of_head? h)]
      exact ih fun h ↦ ha (List.mem_of_mem_tail h)

end Stepping

/-! ## Ranks under insertion and erasure -/

section Ranks

variable {lt : κ → κ → Prop}

theorem pairwise_lt_nodup [IsStrictTotalOrder κ lt] {keys : List κ} (hs : keys.Pairwise lt) :
    keys.Nodup := by
  refine hs.imp fun {a b} h he ↦ ?_
  subst he
  exact irrefl_of lt a h

theorem getElem?_lt_iff [IsStrictTotalOrder κ lt] {keys : List κ} (hs : keys.Pairwise lt)
    {i j : Nat} {a b : κ} (hi : keys[i]? = some a) (hj : keys[j]? = some b) :
    lt a b ↔ i < j := by
  obtain ⟨hil, rfl⟩ := List.getElem?_eq_some_iff.mp hi
  obtain ⟨hjl, rfl⟩ := List.getElem?_eq_some_iff.mp hj
  have hp := List.pairwise_iff_getElem.mp hs
  constructor
  · intro h
    by_contra hij
    rcases Nat.lt_or_eq_of_le (Nat.le_of_not_lt hij) with hlt | heq
    · exact asymm_of lt h (hp j i hjl hil hlt)
    · subst heq
      exact irrefl_of lt _ h
  · exact hp i j hil hjl

/-- The keys below the one of rank `d` are the `d` keys in front of it. -/
theorem filter_lt_eq_take [IsStrictTotalOrder κ lt] [DecidableRel lt] {keys : List κ}
    (hs : keys.Pairwise lt) {d : Nat} {k : κ} (hd : keys[d]? = some k) :
    (keys.filter fun a ↦ lt a k) = keys.take d := by
  induction keys generalizing d with
  | nil => simp at hd
  | cons a rest ih =>
      have hc := List.pairwise_cons.mp hs
      cases d with
      | zero =>
          have hk : a = k := by simpa using hd
          subst hk
          rw [List.take_zero, List.filter_eq_nil_iff]
          intro b hb
          rcases List.mem_cons.mp hb with hb | hb
          · simpa [hb] using irrefl_of lt a
          · simpa using asymm_of lt (hc.1 b hb)
      | succ d =>
          have hd : rest[d]? = some k := by simpa using hd
          have hlt : lt a k := hc.1 k (List.mem_of_getElem? hd)
          rw [List.filter_cons_of_pos (by simpa using hlt), List.take_succ_cons, ih hc.2 hd]

theorem filter_ne_eq_eraseIdx [DecidableEq κ] {keys : List κ} (hn : keys.Nodup) {k : κ} {p : Nat}
    (hp : keys[p]? = some k) : (keys.filter fun a ↦ a ≠ k) = keys.eraseIdx p := by
  induction keys generalizing p with
  | nil => simp at hp
  | cons a rest ih =>
      obtain ⟨ha, hn⟩ := List.nodup_cons.mp hn
      cases p with
      | zero =>
          have hk : a = k := by simpa using hp
          subst hk
          rw [List.filter_cons_of_neg (by simp), List.eraseIdx_cons_zero, List.filter_eq_self]
          intro b hb
          simpa using fun h : b = a ↦ ha (h ▸ hb)
      | succ p =>
          have hp : rest[p]? = some k := by simpa using hp
          have hne : a ≠ k := fun h ↦ ha (h ▸ List.mem_of_getElem? hp)
          rw [List.filter_cons_of_pos (by simpa using hne), List.eraseIdx_cons_succ, ih hn hp]

/-- Erasing a key at or in front of rank `d` moves the next key to rank `d`. -/
theorem erase_getElem?_of_le [IsStrictTotalOrder κ lt] [DecidableEq κ] {keys : List κ} {k : κ}
    {p d : Nat} (hs : keys.Pairwise lt) (hp : keys[p]? = some k) (hle : p ≤ d) :
    (keys.filter fun a ↦ a ≠ k)[d]? = keys[d + 1]? := by
  rw [filter_ne_eq_eraseIdx (pairwise_lt_nodup hs) hp, List.getElem?_eraseIdx,
    if_neg (by omega)]

/-- Erasing a key behind rank `d` leaves rank `d` alone. -/
theorem erase_getElem?_of_gt [IsStrictTotalOrder κ lt] [DecidableEq κ] {keys : List κ} {k : κ}
    {p d : Nat} (hs : keys.Pairwise lt) (hp : keys[p]? = some k) (hlt : d < p) :
    (keys.filter fun a ↦ a ≠ k)[d]? = keys[d]? := by
  rw [filter_ne_eq_eraseIdx (pairwise_lt_nodup hs) hp, List.getElem?_eraseIdx, if_pos hlt]

variable [DecidableRel lt]

/-- Inserting in front of a key moves that key up by one rank. -/
theorem orderedInsert_getElem?_of_lt {keys : List κ} {k e : κ} {d : Nat}
    (he : keys[d]? = some e) (hlt : lt k e) :
    (keys.orderedInsert lt k)[d + 1]? = some e := by
  induction keys generalizing d with
  | nil => simp at he
  | cons a rest ih =>
      rw [List.orderedInsert_cons]
      split
      · simpa using he
      · rename_i hka
        cases d with
        | zero =>
            have ha : a = e := by simpa using he
            exact absurd (ha ▸ hlt) hka
        | succ d => simpa using ih (by simpa using he)

/-- Inserting behind a key leaves its rank alone. -/
theorem orderedInsert_getElem?_of_gt [IsStrictTotalOrder κ lt] {keys : List κ} {k e : κ} {d : Nat}
    (hs : keys.Pairwise lt) (he : keys[d]? = some e) (hlt : lt e k) :
    (keys.orderedInsert lt k)[d]? = some e := by
  induction keys generalizing d with
  | nil => simp at he
  | cons a rest ih =>
      have hka : ¬ lt k a := by
        intro hka
        have hke : lt e a := trans_of lt hlt hka
        have hd : d < 0 := (getElem?_lt_iff hs he (by simp : (a :: rest)[0]? = some a)).mp hke
        omega
      rw [List.orderedInsert_cons, if_neg hka]
      cases d with
      | zero => simpa using he
      | succ d => simpa using ih (List.pairwise_cons.mp hs).2 (by simpa using he)

theorem pairwise_orderedInsert [IsStrictTotalOrder κ lt] {keys : List κ} {k : κ}
    (hs : keys.Pairwise lt) (hk : k ∉ keys) : (keys.orderedInsert lt k).Pairwise lt := by
  induction keys with
  | nil => simp
  | cons a rest ih =>
      obtain ⟨ha, hrest⟩ := List.pairwise_cons.mp hs
      obtain ⟨hne, hk⟩ := List.ne_and_not_mem_of_not_mem_cons hk
      rw [List.orderedInsert_cons]
      split
      · rename_i hka
        refine List.pairwise_cons.mpr ⟨?_, hs⟩
        intro b hb
        rcases List.mem_cons.mp hb with rfl | hb
        · exact hka
        · exact trans_of lt hka (ha b hb)
      · rename_i hka
        have hak : lt a k := ((trichotomous_of lt a k).resolve_right
          (by rintro (h | h); exacts [hne h.symm, hka h]))
        refine List.pairwise_cons.mpr ⟨?_, ih hrest hk⟩
        intro b hb
        rcases List.mem_orderedInsert lt |>.mp hb with rfl | hb
        · exact hak
        · exact ha b hb

/-- Among the first `d` keys, only the one that an insertion moves to rank `d` drops out. -/
theorem mem_take_orderedInsert {keys : List κ} {k a : κ} {d : Nat}
    (ha : a ∈ keys.take d) (hrank : (keys.orderedInsert lt k)[d]? ≠ some a) :
    a ∈ (keys.orderedInsert lt k).take d := by
  induction keys generalizing d with
  | nil => simp at ha
  | cons b rest ih =>
      cases d with
      | zero => simp at ha
      | succ d =>
          by_cases hkb : lt k b
          · rw [List.orderedInsert_cons, if_pos hkb, List.getElem?_cons_succ] at hrank
            rw [List.orderedInsert_cons, if_pos hkb, List.take_succ_cons]
            rw [List.take_add_one, List.mem_append, Option.mem_toList] at ha
            exact List.mem_cons_of_mem _ (ha.resolve_right hrank)
          · rw [List.orderedInsert_cons, if_neg hkb, List.getElem?_cons_succ] at hrank
            rw [List.orderedInsert_cons, if_neg hkb, List.take_succ_cons]
            rw [List.take_succ_cons] at ha
            rcases List.mem_cons.mp ha with h | h
            · exact h ▸ List.mem_cons_self
            · exact List.mem_cons_of_mem _ (ih h hrank)

/-- Taking other keys away only moves a key forward. -/
theorem mem_take_filter {p : κ → Bool} {keys : List κ} {a : κ} {d : Nat} (ha : a ∈ keys.take d)
    (hp : p a = true) : a ∈ (keys.filter p).take d := by
  induction keys generalizing d with
  | nil => simp at ha
  | cons b rest ih =>
      cases d with
      | zero => simp at ha
      | succ d =>
          rw [List.take_succ_cons, List.mem_cons] at ha
          rcases ha with h | h
          · rw [List.filter_cons_of_pos (h ▸ hp), h]
            exact List.mem_cons_self
          · by_cases hb : p b = true
            · rw [List.filter_cons_of_pos hb, List.take_succ_cons]
              exact List.mem_cons_of_mem _ (ih h)
            · rw [List.filter_cons_of_neg hb]
              exact List.take_subset_take_left _ (Nat.le_succ d) (ih h)

end Ranks

/-! ## The container -/

/-- Entries in strictly ascending order of `lt`. -/
structure OrderedMap (κ ν : Type) (lt : κ → κ → Prop) where
  entries : List (κ × ν)
  sorted : (entries.map Prod.fst).Pairwise lt

namespace OrderedMap

variable {lt : κ → κ → Prop}

def empty : OrderedMap κ ν lt := ⟨[], List.Pairwise.nil⟩

def keys (m : OrderedMap κ ν lt) : List κ := m.entries.map Prod.fst

def size (m : OrderedMap κ ν lt) : Nat := m.entries.length

def isEmpty (m : OrderedMap κ ν lt) : Bool := m.entries.isEmpty

/-- `begin()`. -/
def first (m : OrderedMap κ ν lt) : Iter κ := m.keys.head?

variable [DecidableEq κ]

def lookup (m : OrderedMap κ ν lt) (k : κ) : Option ν :=
  (m.entries.find? fun e ↦ e.1 = k).map Prod.snd

/-- `find`: keys equivalent under a strict total order are equal. -/
def find (m : OrderedMap κ ν lt) (k : κ) : Iter κ := if k ∈ m.keys then some k else none

/-- `++it`. -/
def next (m : OrderedMap κ ν lt) (it : Iter κ) : Option (Iter κ) := it.bind (nextKey m.keys)

/-- `--it`. -/
def prev (m : OrderedMap κ ν lt) (it : Iter κ) : Option (Iter κ) := (prevKey m.keys it).map some

/-- `it->first`. -/
def keyAt (m : OrderedMap κ ν lt) (it : Iter κ) : Option κ := it.bind fun k ↦ m.find k

/-- The entries an iteration from `begin()` to `last` visits. -/
def before (m : OrderedMap κ ν lt) (last : Iter κ) : List (κ × ν) :=
  m.entries.takeWhile fun e ↦ some e.1 ≠ last

/-- Write through an iterator on `k`. -/
def modify (m : OrderedMap κ ν lt) (k : κ) (f : ν → ν) : OrderedMap κ ν lt where
  entries := m.entries.map fun e ↦ if e.1 = k then (e.1, f e.2) else e
  sorted := by
    have h : (m.entries.map fun e ↦ if e.1 = k then (e.1, f e.2) else e).map Prod.fst =
        m.entries.map Prod.fst := by
      rw [List.map_map]
      refine List.map_congr_left fun e _ ↦ ?_
      simp only [Function.comp_apply]
      split <;> rfl
    rw [h]
    exact m.sorted

/-- Write through an iterator. -/
def modifyAt (m : OrderedMap κ ν lt) (it : Iter κ) (f : ν → ν) : Option (OrderedMap κ ν lt) :=
  (m.keyAt it).map fun k ↦ m.modify k f

/-- `erase(it)` for an iterator on `k`. -/
def erase (m : OrderedMap κ ν lt) (k : κ) : OrderedMap κ ν lt where
  entries := m.entries.filter fun e ↦ e.1 ≠ k
  sorted := m.sorted.sublist (List.filter_sublist.map Prod.fst)

/-! ### Keys -/

omit [DecidableEq κ] in
theorem sorted_keys (m : OrderedMap κ ν lt) : m.keys.Pairwise lt := m.sorted

omit [DecidableEq κ] in
@[simp] theorem length_keys (m : OrderedMap κ ν lt) : m.keys.length = m.size := List.length_map ..

@[simp] theorem keys_modify (m : OrderedMap κ ν lt) (k : κ) (f : ν → ν) :
    (m.modify k f).keys = m.keys := by
  simp only [keys, modify, List.map_map]
  refine List.map_congr_left fun e _ ↦ ?_
  simp only [Function.comp_apply]
  split <;> rfl

theorem keys_erase (m : OrderedMap κ ν lt) (k : κ) :
    (m.erase k).keys = m.keys.filter fun a ↦ a ≠ k := by
  simp only [keys, erase, List.filter_map]
  rfl

theorem keyAt_of_mem {m : OrderedMap κ ν lt} {k : κ} (h : k ∈ m.keys) :
    m.keyAt (some k) = some k := if_pos h

theorem modifyAt_of_mem {m : OrderedMap κ ν lt} {k : κ} (f : ν → ν) (h : k ∈ m.keys) :
    m.modifyAt (some k) f = some (m.modify k f) := by
  rw [modifyAt, keyAt_of_mem h, Option.map_some]

/-! ### Lookups -/

section Lookup

variable [IsStrictTotalOrder κ lt]

omit [DecidableEq κ] in
theorem nodup_keys (m : OrderedMap κ ν lt) : m.keys.Nodup := pairwise_lt_nodup m.sorted

theorem lookup_eq_some_iff {m : OrderedMap κ ν lt} {k : κ} {v : ν} :
    m.lookup k = some v ↔ (k, v) ∈ m.entries := by
  have hn : (m.entries.map Prod.fst).Nodup := m.nodup_keys
  unfold lookup
  generalize m.entries = entries at hn ⊢
  induction entries with
  | nil => simp
  | cons e rest ih =>
      obtain ⟨k', v'⟩ := e
      obtain ⟨hk', hn⟩ := List.nodup_cons.mp hn
      by_cases hk : k' = k
      · subst hk
        have hv : (k', v) ∉ rest := fun h ↦ hk' (List.mem_map.mpr ⟨_, h, rfl⟩)
        simp [hv, eq_comm]
      · rw [List.find?_cons_of_neg (by simpa using hk)]
        refine (ih hn).trans ?_
        simp [Ne.symm hk]

theorem mem_keys_iff {m : OrderedMap κ ν lt} {k : κ} : k ∈ m.keys ↔ ∃ v, m.lookup k = some v := by
  simp [keys, lookup_eq_some_iff]

theorem lookup_eq_none_iff {m : OrderedMap κ ν lt} {k : κ} : m.lookup k = none ↔ k ∉ m.keys := by
  rw [mem_keys_iff, Option.eq_none_iff_forall_ne_some]
  simp

theorem lookup_modify (m : OrderedMap κ ν lt) (k k' : κ) (f : ν → ν) :
    (m.modify k f).lookup k' = if k' = k then (m.lookup k').map f else m.lookup k' := by
  ext v
  rw [lookup_eq_some_iff]
  simp only [modify, List.mem_map]
  split
  · rename_i hk
    subst hk
    simp only [Option.map_eq_some_iff, lookup_eq_some_iff]
    constructor
    · rintro ⟨⟨a, b⟩, he, heq⟩
      split at heq
      · obtain ⟨rfl, rfl⟩ := Prod.mk.inj heq
        exact ⟨b, he, rfl⟩
      · rename_i hne
        exact absurd (congrArg Prod.fst heq) hne
    · rintro ⟨b, he, rfl⟩
      exact ⟨(k', b), he, by simp⟩
  · rename_i hne
    rw [lookup_eq_some_iff]
    constructor
    · rintro ⟨⟨a, b⟩, he, heq⟩
      split at heq
      · rename_i hk
        exact absurd ((congrArg Prod.fst heq).symm.trans hk) hne
      · exact heq ▸ he
    · intro he
      exact ⟨(k', v), he, by simp [hne]⟩

theorem lookup_erase (m : OrderedMap κ ν lt) (k k' : κ) :
    (m.erase k).lookup k' = if k' = k then none else m.lookup k' := by
  ext v
  rw [lookup_eq_some_iff]
  simp only [erase, List.mem_filter]
  split
  · rename_i hk
    simp [hk]
  · rename_i hk
    simp [hk, lookup_eq_some_iff]

/-- Iterating from `begin()` to the key of rank `d` visits exactly the first `d` entries. -/
theorem before_eq_take (m : OrderedMap κ ν lt) (d : Nat) :
    m.before m.keys[d]? = m.entries.take d := by
  have hn : (m.entries.map Prod.fst).Nodup := m.nodup_keys
  unfold before keys
  generalize m.entries = entries at hn ⊢
  induction entries generalizing d with
  | nil => simp
  | cons e rest ih =>
      obtain ⟨he, hn⟩ := List.nodup_cons.mp hn
      cases d with
      | zero => simp
      | succ d =>
          have hne : some e.1 ≠ (rest.map Prod.fst)[d]? :=
            fun h ↦ he (List.mem_of_getElem? h.symm)
          rw [List.map_cons, List.getElem?_cons_succ,
            List.takeWhile_cons_of_pos (by simpa using hne), List.take_succ_cons, ih d hn]

/-- Sorted maps whose lookups agree under a projection list the same projected entries. -/
theorem entries_map_eq_of_lookup {ν' : Type} {m m' : OrderedMap κ ν lt} (f : ν → ν')
    (h : ∀ k, (m.lookup k).map f = (m'.lookup k).map f) :
    m.entries.map (fun e ↦ (e.1, f e.2)) = m'.entries.map (fun e ↦ (e.1, f e.2)) := by
  have hkeys (m : OrderedMap κ ν lt) :
      (m.entries.map fun e ↦ (e.1, f e.2)).map Prod.fst = m.keys := by
    rw [List.map_map]; rfl
  have hsorted (m : OrderedMap κ ν lt) :
      (m.entries.map fun e ↦ (e.1, f e.2)).Pairwise fun a b ↦ lt a.1 b.1 :=
    List.pairwise_map.mp ((hkeys m).symm ▸ m.sorted)
  have hmem (m : OrderedMap κ ν lt) (k : κ) (w : ν') :
      (k, w) ∈ m.entries.map (fun e ↦ (e.1, f e.2)) ↔ (m.lookup k).map f = some w := by
    simp only [List.mem_map, Option.map_eq_some_iff, lookup_eq_some_iff, Prod.mk.injEq, Prod.exists]
    constructor
    · rintro ⟨a, b, he, rfl, rfl⟩
      exact ⟨b, he, rfl⟩
    · rintro ⟨b, he, rfl⟩
      exact ⟨k, b, he, rfl, rfl⟩
  have hnodup (m : OrderedMap κ ν lt) : (m.entries.map fun e ↦ (e.1, f e.2)).Nodup :=
    List.Nodup.of_map Prod.fst ((hkeys m).symm ▸ m.nodup_keys)
  refine List.Perm.eq_of_pairwise ?_ (hsorted m) (hsorted m') ?_
  · intro a b _ _ hab hba
    exact absurd hba (asymm_of lt hab)
  · refine (List.perm_ext_iff_of_nodup (hnodup m) (hnodup m')).mpr ?_
    rintro ⟨k, w⟩
    rw [hmem, hmem, h]

/-- Maps with the same lookups are the same. -/
theorem eq_of_lookup {m m' : OrderedMap κ ν lt} (h : ∀ k, m.lookup k = m'.lookup k) : m = m' := by
  have hentries := entries_map_eq_of_lookup id fun k ↦ congrArg (Option.map id) (h k)
  simp only [id, Prod.mk.eta, List.map_id'] at hentries
  cases m
  cases m'
  cases hentries
  rfl

omit [DecidableEq κ] in
/-- The key of rank `d` is the one with `d` keys in front of it. -/
theorem getElem?_keys_iff [DecidableRel lt] (m : OrderedMap κ ν lt) {d : Nat} {k : κ} :
    m.keys[d]? = some k ↔ k ∈ m.keys ∧ (m.keys.filter fun a ↦ lt a k).length = d := by
  have hlength {i : Nat} (hi : m.keys[i]? = some k) :
      (m.keys.filter fun a ↦ lt a k).length = i := by
    have hlt := (List.getElem?_eq_some_iff.mp hi).1
    rw [filter_lt_eq_take m.sorted_keys hi, List.length_take]
    omega
  constructor
  · exact fun hd ↦ ⟨List.mem_of_getElem? hd, hlength hd⟩
  · rintro ⟨hk, hd⟩
    rcases List.mem_iff_getElem?.mp hk with ⟨i, hi⟩
    rw [← hd, hlength hi, hi]

end Lookup

/-! ### Insertion -/

section Insert

variable [DecidableRel lt]

omit [DecidableEq κ] in
theorem map_fst_orderedInsert (entries : List (κ × ν)) (k : κ) (v : ν) :
    (entries.orderedInsert (fun a b ↦ lt a.1 b.1) (k, v)).map Prod.fst =
      (entries.map Prod.fst).orderedInsert lt k :=
  List.map_orderedInsert _ _ _ _ _ (fun _ _ ↦ Iff.rfl) (fun _ _ ↦ Iff.rfl)

variable [IsStrictTotalOrder κ lt]

/-- `insert({k, v})`: an entry already there is kept, and the flag says so. -/
def insert (m : OrderedMap κ ν lt) (k : κ) (v : ν) : OrderedMap κ ν lt × Bool :=
  if h : k ∈ m.keys then (m, false)
  else
    (⟨m.entries.orderedInsert (fun a b ↦ lt a.1 b.1) (k, v), by
      rw [map_fst_orderedInsert]
      exact pairwise_orderedInsert m.sorted h⟩, true)

theorem insert_of_mem {m : OrderedMap κ ν lt} {k : κ} (v : ν) (h : k ∈ m.keys) :
    m.insert k v = (m, false) := dif_pos h

theorem insert_of_not_mem {m : OrderedMap κ ν lt} {k : κ} (v : ν) (h : k ∉ m.keys) :
    ∃ m', m.insert k v = (m', true) ∧ m'.keys = m.keys.orderedInsert lt k ∧
      ∀ k', m'.lookup k' = if k' = k then some v else m.lookup k' := by
  refine ⟨_, dif_neg h, map_fst_orderedInsert _ _ _, fun k' ↦ ?_⟩
  ext w
  rw [lookup_eq_some_iff, List.mem_orderedInsert]
  split
  · rename_i hk
    subst hk
    have hw : (k', w) ∉ m.entries := fun hmem ↦ h (List.mem_map.mpr ⟨_, hmem, rfl⟩)
    simp [hw, eq_comm]
  · rename_i hk
    simp [hk, lookup_eq_some_iff]

end Insert

/-! ### Iterators that keep their rank -/

section Rank

variable [IsStrictTotalOrder κ lt] [DecidableRel lt]

/-- Before an erasure in front of it, or of its own key, an iterator keeps its rank by one step
forward. -/
theorem step_of_erase {m : OrderedMap κ ν lt} {k e : κ} {d : Nat} (hk : k ∈ m.keys)
    (he : m.keys[d]? = some e) :
    (if lt k e ∨ k = e then m.next (some e) else some (some e)) = some (m.erase k).keys[d]? := by
  rcases List.getElem?_of_mem hk with ⟨p, hp⟩
  have hd : d < m.keys.length := (List.getElem?_eq_some_iff.mp he).1
  rw [keys_erase]
  by_cases hle : lt k e ∨ k = e
  · have hpd : p ≤ d := by
      rcases hle with h | h
      · exact Nat.le_of_lt ((getElem?_lt_iff m.sorted_keys hp he).mp h)
      · rw [h] at hp
        exact Nat.le_of_eq ((List.getElem?_inj hd m.nodup_keys).mp (he.trans hp.symm)).symm
    rw [if_pos hle, next, Option.bind_some, nextKey_getElem? m.nodup_keys he,
      erase_getElem?_of_le m.sorted_keys hp hpd]
  · have hgt : lt e k := by
      rcases trichotomous_of lt k e with h | h | h
      · exact absurd (.inl h) hle
      · exact absurd (.inr h) hle
      · exact h
    have hpd : d < p := (getElem?_lt_iff m.sorted_keys he hp).mp hgt
    rw [if_neg hle, erase_getElem?_of_gt m.sorted_keys hp hpd, he]

/-- Behind an insertion in front of it, an iterator keeps its rank by one step back. -/
theorem step_of_insert {m m' : OrderedMap κ ν lt} {k e : κ} {d : Nat} (hk : k ∉ m.keys)
    (hkeys : m'.keys = m.keys.orderedInsert lt k) (he : m.keys[d]? = some e) :
    (if lt k e then m'.prev (some e) else some (some e)) = some m'.keys[d]? := by
  by_cases hlt : lt k e
  · have hup : m'.keys[d + 1]? = some e := by
      rw [hkeys]
      exact orderedInsert_getElem?_of_lt he hlt
    have hd : d < m'.keys.length := by
      have hlast := (List.getElem?_eq_some_iff.mp hup).1
      omega
    rw [if_pos hlt, prev, ← hup, prevKey_getElem? m'.nodup_keys hd, List.getElem?_eq_getElem hd]
    rfl
  · have hne : k ≠ e := fun h ↦ hk (h ▸ List.mem_of_getElem? he)
    have hgt : lt e k := by
      rcases trichotomous_of lt k e with h | h | h
      · exact absurd h hlt
      · exact absurd h hne
      · exact h
    rw [if_neg hlt, hkeys, orderedInsert_getElem?_of_gt m.sorted_keys he hgt]

end Rank

end OrderedMap

end OrderedContainer
