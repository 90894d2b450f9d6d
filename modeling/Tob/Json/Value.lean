import Tob.Library.JsonText

/-!
# Values of the JSON reader

`Json::Value` with the bytes of its strings.  The members of an object are in key order, as its
`std::map` keeps them.
-/

namespace Tob

/-- `Json::Value`; `real` keeps the text `asString` gives for the double. -/
inductive Value where
  | null
  | boolean (value : Bool)
  | integer (value : Int)
  | real (text : List UInt8)
  | string (value : List UInt8)
  | array (items : List Value)
  | object (members : List (List UInt8 × Value))

namespace Value

/-- The members after `value_[name] = value`. -/
def setMember (name : List UInt8) (value : Value) :
    List (List UInt8 × Value) → List (List UInt8 × Value)
  | [] => [(name, value)]
  | (key, old) :: rest =>
      if name < key then (name, value) :: (key, old) :: rest
      else if name = key then (name, value) :: rest
      else (key, old) :: setMember name value rest

/-- The members after all these have been set in turn. -/
def setMembers (members new : List (List UInt8 × Value)) : List (List UInt8 × Value) :=
  new.foldl (fun members m ↦ setMember m.1 m.2 members) members

@[simp] theorem setMembers_nil (members : List (List UInt8 × Value)) :
    setMembers members [] = members := rfl

@[simp] theorem setMembers_cons (members new : List (List UInt8 × Value))
    (m : List UInt8 × Value) :
    setMembers members (m :: new) = setMembers (setMember m.1 m.2 members) new := rfl

/-- In key order, every key once. -/
def Sorted (members : List (List UInt8 × Value)) : Prop :=
  members.Pairwise fun a b ↦ a.1 < b.1

theorem mem_setMember {name key : List UInt8} {value old : Value}
    {members : List (List UInt8 × Value)} (h : (key, old) ∈ setMember name value members) :
    (key, old) = (name, value) ∨ (key, old) ∈ members := by
  induction members with
  | nil => exact .inl (List.mem_singleton.mp h)
  | cons m rest ih =>
      rcases m with ⟨k, v⟩
      rw [setMember] at h
      split at h
      · exact List.mem_cons.mp h
      · split at h
        · exact (List.mem_cons.mp h).imp_right (List.mem_cons_of_mem _)
        · rcases List.mem_cons.mp h with h | h
          · exact .inr (h ▸ List.mem_cons_self)
          · exact (ih h).imp_right (List.mem_cons_of_mem _)

theorem sorted_setMember {name : List UInt8} {value : Value}
    {members : List (List UInt8 × Value)} (h : Sorted members) :
    Sorted (setMember name value members) := by
  induction members with
  | nil => exact List.pairwise_singleton _ _
  | cons m rest ih =>
      rcases m with ⟨k, v⟩
      rcases List.pairwise_cons.mp h with ⟨hk, hrest⟩
      rw [setMember]
      split
      · rename_i hlt
        refine List.pairwise_cons.mpr ⟨fun m hm ↦ ?_, h⟩
        rcases List.mem_cons.mp hm with rfl | hm
        · exact hlt
        · exact List.lt_trans hlt (hk m hm)
      · rename_i hge
        split
        · rename_i heq
          subst heq
          exact List.pairwise_cons.mpr ⟨hk, hrest⟩
        · rename_i hne
          refine List.pairwise_cons.mpr ⟨?_, ih hrest⟩
          rintro ⟨key, old⟩ hm
          rcases mem_setMember hm with heq | hm
          · cases heq
            exact Std.lt_of_le_of_ne hge (Ne.symm hne)
          · exact hk _ hm

/-- Setting a key behind all others appends it. -/
theorem setMember_append {name : List UInt8} {value : Value}
    {members : List (List UInt8 × Value)} (h : ∀ m ∈ members, m.1 < name) :
    setMember name value members = members ++ [(name, value)] := by
  induction members with
  | nil => rfl
  | cons m rest ih =>
      rcases m with ⟨k, v⟩
      have hk : k < name := h (k, v) List.mem_cons_self
      have hne : name ≠ k := fun heq ↦ List.lt_irrefl k (heq ▸ hk)
      rw [setMember, if_neg (List.lt_asymm hk), if_neg hne,
        ih fun m hm ↦ h m (List.mem_cons_of_mem _ hm), List.cons_append]

theorem setMembers_append {members new : List (List UInt8 × Value)}
    (h : Sorted (members ++ new)) : setMembers members new = members ++ new := by
  induction new generalizing members with
  | nil => rw [setMembers_nil, List.append_nil]
  | cons m new ih =>
      have hlt : ∀ m' ∈ members, m'.1 < m.1 := fun m' hm' ↦
        (List.pairwise_append.mp h).2.2 m' hm' m List.mem_cons_self
      rw [setMembers_cons, setMember_append hlt, ih (by rwa [List.append_assoc]),
        List.append_assoc, List.singleton_append]

/-- The value read from members in key order has just these. -/
theorem setMembers_of_sorted {members : List (List UInt8 × Value)} (h : Sorted members) :
    setMembers [] members = members :=
  setMembers_append (by simpa using h)

theorem sorted_setMembers {members new : List (List UInt8 × Value)} (h : Sorted members) :
    Sorted (setMembers members new) := by
  induction new generalizing members with
  | nil => exact h
  | cons m new ih => exact ih (sorted_setMember h)

/-- Values as the reader stores them: at most so many levels, integers of 64 bits, members in key
order. -/
inductive Stored (Real : List UInt8 → Prop) : Nat → Value → Prop
  | null {depth : Nat} : Stored Real (depth + 1) .null
  | boolean {depth : Nat} {value : Bool} : Stored Real (depth + 1) (.boolean value)
  | integer {depth : Nat} {value : Int} :
      -2 ^ 63 ≤ value → value < 2 ^ 64 → Stored Real (depth + 1) (.integer value)
  | real {depth : Nat} {text : List UInt8} : Real text → Stored Real (depth + 1) (.real text)
  | string {depth : Nat} {value : List UInt8} : Stored Real (depth + 1) (.string value)
  | array {depth : Nat} {items : List Value} :
      (∀ v ∈ items, Stored Real depth v) → Stored Real (depth + 1) (.array items)
  | object {depth : Nat} {members : List (List UInt8 × Value)} :
      Sorted members → (∀ m ∈ members, Stored Real depth m.2) →
        Stored Real (depth + 1) (.object members)

end Value

end Tob
