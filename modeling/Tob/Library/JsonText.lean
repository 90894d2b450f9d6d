import Mathlib

/-!
# JSON texts

JSON as a relation between values and bytes, for any representation of the values.  Comments may
stand where spaces may.  How lists may be separated is a parameter, for the standard and for
readers that take more.
-/

namespace JsonText

/-! ## Gaps -/

def isSpace (c : UInt8) : Bool := c = 32 || c = 9 || c = 13 || c = 10

def Spaces (g : List UInt8) : Prop := ∀ c ∈ g, isSpace c = true

/-- The rest of a comment between `/*` and the first `*/` behind it. -/
inductive BlockEnd : List UInt8 → Prop
  | close : BlockEnd [42, 47]
  | skip {c : UInt8} {t : List UInt8} :
      (c = 42 → t.head? ≠ some 47) → BlockEnd t → BlockEnd (c :: t)

/-- The rest of a comment between `//` and the end of the line. -/
inductive LineEnd : List UInt8 → Prop
  | newline : LineEnd [10]
  | mac : LineEnd [13]
  | dos : LineEnd [13, 10]
  | skip {c : UInt8} {t : List UInt8} : c ≠ 10 → c ≠ 13 → LineEnd t → LineEnd (c :: t)

/-- What may stand between two tokens. -/
inductive Gap : List UInt8 → Prop
  | nil : Gap []
  | space {c : UInt8} {g : List UInt8} : isSpace c = true → Gap g → Gap (c :: g)
  | block {t g : List UInt8} : BlockEnd t → Gap g → Gap (47 :: 42 :: (t ++ g))
  | line {t g : List UInt8} : LineEnd t → Gap g → Gap (47 :: 47 :: (t ++ g))

theorem Spaces.gap {g : List UInt8} (h : Spaces g) : Gap g := by
  induction g with
  | nil => exact .nil
  | cons c g ih =>
      exact .space (h c List.mem_cons_self) (ih fun c hc ↦ h c (List.mem_cons_of_mem _ hc))

theorem Gap.append {g k : List UInt8} (hg : Gap g) (hk : Gap k) : Gap (g ++ k) := by
  induction hg with
  | nil => exact hk
  | space hc _ ih => exact .space hc ih
  | block ht _ ih =>
      rw [List.cons_append, List.cons_append, List.append_assoc]
      exact .block ht ih
  | line ht _ ih =>
      rw [List.cons_append, List.cons_append, List.append_assoc]
      exact .line ht ih

/-- A gap with a comment in it. -/
def Commented (g : List UInt8) : Prop := Gap g ∧ ¬ Spaces g

/-! ## Numbers -/

def isDigit (c : UInt8) : Bool := 48 ≤ c && c ≤ 57

def Digits (t : List UInt8) : Prop := ∀ c ∈ t, isDigit c = true

/-- A point and digits, or nothing. -/
inductive Fraction : List UInt8 → Prop
  | none : Fraction []
  | point {ds : List UInt8} : Digits ds → Fraction (46 :: ds)

/-- An `e`, a sign and digits, or nothing. -/
inductive Exponent : List UInt8 → Prop
  | none : Exponent []
  | unsigned {c : UInt8} {ds : List UInt8} : c = 101 ∨ c = 69 → Digits ds → Exponent (c :: ds)
  | signed {c s : UInt8} {ds : List UInt8} :
      c = 101 ∨ c = 69 → s = 43 ∨ s = 45 → Digits ds → Exponent (c :: s :: ds)

/-- The shape of a number; the standard asks for more digits than this. -/
inductive Number : List UInt8 → Prop
  | mk {c : UInt8} {ds f e : List UInt8} :
      c = 45 ∨ isDigit c = true → Digits ds → Fraction f → Exponent e → Number (c :: (ds ++ f ++ e))

theorem not_number {c : UInt8} {t : List UInt8} (h : c ≠ 45) (hc : isDigit c = false) :
    ¬ Number (c :: t) := by
  intro hnumber
  cases hnumber with
  | mk hfirst =>
      rcases hfirst with hsign | hdigit
      · exact h hsign
      · cases hc.symm.trans hdigit

/-- A number goes on with one of these. -/
def continues (c : UInt8) : Bool :=
  isDigit c || c = 46 || c = 101 || c = 69 || c = 43 || c = 45

/-- What stands behind a number. -/
def Follows (rest : List UInt8) : Prop := ∀ c ∈ rest.head?, continues c = false

theorem Follows.of_head {rest : List UInt8} (h : Follows rest) {c : UInt8}
    (hc : c ∈ rest.head?) :
    isDigit c = false ∧ c ≠ 46 ∧ c ≠ 101 ∧ c ≠ 69 ∧ c ≠ 43 ∧ c ≠ 45 := by
  have hcont := h c hc
  simp only [continues, Bool.or_eq_false_iff, decide_eq_false_iff_not] at hcont
  grind

theorem Exponent.head {e rest : List UInt8} (he : Exponent e) (hrest : Follows rest)
    {c : UInt8} (hc : c ∈ (e ++ rest).head?) : isDigit c = false ∧ c ≠ 46 := by
  cases he with
  | none => exact ⟨(hrest.of_head hc).1, (hrest.of_head hc).2.1⟩
  | unsigned h =>
      cases hc
      rcases h with rfl | rfl <;> exact ⟨rfl, by decide⟩
  | signed h =>
      cases hc
      rcases h with rfl | rfl <;> exact ⟨rfl, by decide⟩

theorem Fraction.head {f rest : List UInt8} (hf : Fraction f)
    (hrest : ∀ c ∈ rest.head?, isDigit c = false) {c : UInt8} (hc : c ∈ (f ++ rest).head?) :
    isDigit c = false := by
  cases hf with
  | none => exact hrest c hc
  | point =>
      cases hc
      rfl

/-! ## Strings -/

/-- The byte a letter behind a backslash stands for. -/
def escaped (c : UInt8) : Option UInt8 :=
  if c = 34 then some 34        -- quotation mark
  else if c = 47 then some 47   -- slash
  else if c = 92 then some 92   -- backslash
  else if c = 98 then some 8    -- b
  else if c = 102 then some 12  -- f
  else if c = 110 then some 10  -- n
  else if c = 114 then some 13  -- r
  else if c = 116 then some 9   -- t
  else none

def hexDigit (c : UInt8) : Option Nat :=
  if 48 ≤ c ∧ c ≤ 57 then some (c.toNat - 48)
  else if 97 ≤ c ∧ c ≤ 102 then some (c.toNat - 97 + 10)
  else if 65 ≤ c ∧ c ≤ 70 then some (c.toNat - 65 + 10)
  else none

/-- The number four hexadecimal digits stand for. -/
def CodeUnit (ds : List UInt8) (u : Nat) : Prop :=
  ds.length = 4 ∧ ds.foldlM (fun n c ↦ (hexDigit c).map fun d ↦ n * 16 + d) 0 = some u

/-- The first half of a surrogate pair. -/
def isHigh (u : Nat) : Bool := 0xD800 ≤ u && u ≤ 0xDBFF

/-- The code point of a surrogate pair. -/
def pair (high low : Nat) : Nat := 0x10000 + (high % 0x400) * 0x400 + low % 0x400

/-- A string between its quotation marks, and the bytes it stands for. -/
inductive Chars (utf8 : Nat → List UInt8) : List UInt8 → List UInt8 → Prop
  | nil : Chars utf8 [] []
  | plain {c : UInt8} {t s : List UInt8} :
      c ≠ 34 → c ≠ 92 → Chars utf8 t s → Chars utf8 (c :: t) (c :: s)
  | escape {c b : UInt8} {t s : List UInt8} :
      escaped c = some b → Chars utf8 t s → Chars utf8 (92 :: c :: t) (b :: s)
  | unit {ds t s : List UInt8} {u : Nat} :
      CodeUnit ds u → isHigh u = false → Chars utf8 t s →
        Chars utf8 (92 :: 117 :: (ds ++ t)) (utf8 u ++ s)
  | pair {ds es t s : List UInt8} {u v : Nat} :
      CodeUnit ds u → isHigh u = true → CodeUnit es v → Chars utf8 t s →
        Chars utf8 (92 :: 117 :: (ds ++ 92 :: 117 :: (es ++ t))) (utf8 (pair u v) ++ s)

theorem isHigh_iff {u : Nat} : isHigh u = true ↔ 0xD800 ≤ u ∧ u ≤ 0xDBFF := by
  rw [isHigh, Bool.and_eq_true, decide_eq_true_iff, decide_eq_true_iff]

section Strings

variable {utf8 : Nat → List UInt8}

/-- No quotation mark without a backslash, and no backslash at the end. -/
inductive Quoted : List UInt8 → Prop
  | nil : Quoted []
  | plain {c : UInt8} {t : List UInt8} : c ≠ 34 → c ≠ 92 → Quoted t → Quoted (c :: t)
  | escape {c : UInt8} {t : List UInt8} : Quoted t → Quoted (92 :: c :: t)

theorem Quoted.append {s t : List UInt8} (hs : Quoted s) (ht : Quoted t) : Quoted (s ++ t) := by
  induction hs with
  | nil => exact ht
  | plain h34 h92 _ ih => exact .plain h34 h92 ih
  | escape _ ih => exact .escape ih

theorem quoted_of_forall {t : List UInt8} (h : ∀ c ∈ t, c ≠ 34 ∧ c ≠ 92) : Quoted t := by
  induction t with
  | nil => exact .nil
  | cons c t ih =>
      rcases List.forall_mem_cons.mp h with ⟨hc, ht⟩
      exact .plain hc.1 hc.2 (ih ht)

theorem Quoted.of_append {s t : List UInt8} (hs : ∀ c ∈ s, c ≠ 34 ∧ c ≠ 92)
    (h : Quoted (s ++ t)) : Quoted t := by
  induction s with
  | nil => exact h
  | cons c s ih =>
      rcases List.forall_mem_cons.mp hs with ⟨hc, hs⟩
      rw [List.cons_append] at h
      generalize hst : s ++ t = r at h
      cases h with
      | plain _ _ h => exact ih hs (hst ▸ h)
      | escape => exact absurd rfl hc.2

theorem hexDigit_ne {c : UInt8} {d : Nat} (h : hexDigit c = some d) : c ≠ 34 ∧ c ≠ 92 := by
  constructor <;> rintro rfl <;> cases h

theorem ne_of_foldlM {ds : List UInt8} {n u : Nat}
    (h : ds.foldlM (fun n c ↦ (hexDigit c).map fun d ↦ n * 16 + d) n = some u) :
    ∀ c ∈ ds, c ≠ 34 ∧ c ≠ 92 := by
  induction ds generalizing n with
  | nil => exact fun c hc ↦ absurd hc List.not_mem_nil
  | cons c ds ih =>
      rw [List.foldlM_cons] at h
      cases hc : hexDigit c with
      | none =>
          rw [hc] at h
          cases h
      | some d =>
          rw [hc] at h
          exact List.forall_mem_cons.mpr ⟨hexDigit_ne hc, ih h⟩

/-- No digit of a code unit is a quotation mark or a backslash. -/
theorem CodeUnit.ne {ds : List UInt8} {u : Nat} (h : CodeUnit ds u) :
    ∀ c ∈ ds, c ≠ 34 ∧ c ≠ 92 := ne_of_foldlM h.2

theorem CodeUnit.quoted {ds : List UInt8} {u : Nat} (h : CodeUnit ds u) : Quoted ds :=
  quoted_of_forall h.ne

theorem Chars.quoted {t s : List UInt8} (h : Chars utf8 t s) : Quoted t := by
  induction h with
  | nil => exact .nil
  | plain h34 h92 _ ih => exact .plain h34 h92 ih
  | escape _ _ ih => exact .escape ih
  | unit hu _ _ ih => exact .escape (hu.quoted.append ih)
  | pair hu _ hv _ ih =>
      exact .escape (hu.quoted.append (.escape (hv.quoted.append ih)))

end Strings

/-! ## Lists -/

section Separated

variable {α : Type} {Elem : α → List UInt8 → Prop} {Sep : List UInt8 → Prop} {Open : α → Prop}

/-- One element or more with a separator between any two; behind an open element the list may
also end with a separator. -/
inductive Separated (Elem : α → List UInt8 → Prop) (Sep : List UInt8 → Prop) (Open : α → Prop) :
    List α → List UInt8 → Prop
  | last {a : α} {t : List UInt8} : Elem a t → Separated Elem Sep Open [a] t
  | trailing {a : α} {t s g : List UInt8} :
      Elem a t → Sep s → Open a → Gap g → Separated Elem Sep Open [a] (t ++ s ++ g)
  | more {a : α} {as : List α} {t s ts : List UInt8} :
      Elem a t → Sep s → Separated Elem Sep Open as ts →
        Separated Elem Sep Open (a :: as) (t ++ s ++ ts)

theorem Separated.mono {Elem' : α → List UInt8 → Prop} {Sep' : List UInt8 → Prop}
    {Open' : α → Prop} {as : List α} {t : List UInt8} (h : Separated Elem Sep Open as t)
    (helem : ∀ a t, Elem a t → Elem' a t) (hsep : ∀ s, Sep s → Sep' s)
    (hopen : ∀ a, Open a → Open' a) : Separated Elem' Sep' Open' as t := by
  induction h with
  | last he => exact .last (helem _ _ he)
  | trailing he hs ho hg => exact .trailing (helem _ _ he) (hsep _ hs) (hopen _ ho) hg
  | more he hs _ ih => exact .more (helem _ _ he) (hsep _ hs) ih

end Separated

def Comma (s : List UInt8) : Prop := s = [44]

/-! ## Values -/

/-- How values are built: a number's text may have no value. -/
structure Algebra (V : Type) where
  null : V
  boolean : Bool → V
  number : List UInt8 → Option V
  string : List UInt8 → V
  array : List V → V
  object : List (List UInt8 × V) → V
  utf8 : Nat → List UInt8

/-- How the members of an object are separated, and the names behind which a separator may end
them. -/
structure Dialect where
  Sep : List UInt8 → Prop
  Open : List UInt8 → Prop

def standard : Dialect where
  Sep := Comma
  Open _ := False

section Values

variable {V : Type}

/-- A value with gaps around it. -/
inductive Element (Text : V → List UInt8 → Prop) : V → List UInt8 → Prop
  | mk {v : V} {g t k : List UInt8} : Gap g → Text v t → Gap k → Element Text v (g ++ t ++ k)

/-- A name, a colon and a value; no comment before the colon. -/
inductive Member (utf8 : Nat → List UInt8) (Text : V → List UInt8 → Prop) :
    List UInt8 × V → List UInt8 → Prop
  | mk {name : List UInt8} {v : V} {g n k t : List UInt8} :
      Gap g → Chars utf8 n name → Spaces k → Element Text v t →
        Member utf8 Text (name, v) (g ++ 34 :: (n ++ 34 :: (k ++ 58 :: t)))

/-- The text of a value whose parts are texts. -/
inductive TextOf (alg : Algebra V) (dialect : Dialect) (Text : V → List UInt8 → Prop) :
    V → List UInt8 → Prop
  | null : TextOf alg dialect Text alg.null [110, 117, 108, 108]
  | true : TextOf alg dialect Text (alg.boolean Bool.true) [116, 114, 117, 101]
  | false : TextOf alg dialect Text (alg.boolean Bool.false) [102, 97, 108, 115, 101]
  | number {t : List UInt8} {v : V} :
      Number t → alg.number t = some v → TextOf alg dialect Text v t
  | string {t s : List UInt8} :
      Chars alg.utf8 t s → TextOf alg dialect Text (alg.string s) (34 :: (t ++ [34]))
  | emptyArray {g : List UInt8} :
      Spaces g → TextOf alg dialect Text (alg.array []) (91 :: (g ++ [93]))
  | array {vs : List V} {t : List UInt8} :
      Separated (Element Text) Comma (fun _ ↦ False) vs t →
        TextOf alg dialect Text (alg.array vs) (91 :: (t ++ [93]))
  | emptyObject {g : List UInt8} :
      Gap g → TextOf alg dialect Text (alg.object []) (123 :: (g ++ [125]))
  | object {ms : List (List UInt8 × V)} {t : List UInt8} :
      Separated (Member alg.utf8 Text) dialect.Sep (fun m ↦ dialect.Open m.1) ms t →
        TextOf alg dialect Text (alg.object ms) (123 :: (t ++ [125]))

/-- The text of a value with at most so many levels, a scalar being one. -/
def IsText (alg : Algebra V) (dialect : Dialect) : Nat → V → List UInt8 → Prop
  | 0 => fun _ _ ↦ False
  | depth + 1 => TextOf alg dialect (IsText alg dialect depth)

end Values

end JsonText
