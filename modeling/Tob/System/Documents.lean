import Tob.Diff.Behind
import Tob.Json.Document
import Tob.Json.Writer
import Tob.Live.Scaling

/-!
# Documents

The receivers over the reader: what they make of a body or of a payload, from its bytes on.
-/

namespace Tob

open JsonText

/-! ## Values -/

/-- The text of these bytes, if they are UTF-8. -/
def fromUTF8 (bytes : List UInt8) : Option String := String.fromUTF8? ⟨bytes.toArray⟩

namespace Value

mutual

/-- The value as the receivers see it, if its strings are UTF-8. -/
def json : Value → Option Json
  | .null => some .null
  | .boolean value => some (.boolean value)
  | .integer value => (fromUTF8 (Writer.valueToString value)).map .number
  | .real text => (fromUTF8 text).map .number
  | .string value => (fromUTF8 value).map .string
  | .array items => (jsonItems items).map .array
  | .object members => (jsonMembers members).map .object

def jsonItems : List Value → Option (List Json)
  | [] => some []
  | value :: rest => value.json.bind fun item ↦ (jsonItems rest).map (item :: ·)

def jsonMembers : List (List UInt8 × Value) → Option (List (String × Json))
  | [] => some []
  | (name, value) :: rest =>
      (fromUTF8 name).bind fun key ↦
        value.json.bind fun member ↦ (jsonMembers rest).map ((key, member) :: ·)

end

end Value

/-- The bytes are a document for `root`: its text in the standard grammar, with anything behind it
that does not go on with a number. -/
def IsDocument (reader : Reader) (root : Json) (doc : List UInt8) : Prop :=
  ∃ v g t rest, v.json = some root ∧ Gap g ∧
    IsText reader.algebra standard Reader.stackLimit v t ∧ (Number t → Follows rest) ∧
    doc = g ++ t ++ rest

/-- The bytes start with what the reader takes for a document. -/
def IsLenient (reader : Reader) (root : Json) (doc : List UInt8) : Prop :=
  ∃ v g t rest, v.json = some root ∧ Gap g ∧
    IsText reader.algebra Reader.lenient Reader.stackLimit v t ∧ doc = g ++ t ++ rest

/-- `parse` does what the reader does, where the strings of the value are UTF-8. -/
structure Conversions.Reads (conv : Conversions) (reader : Reader) : Prop where
  accepts : ∀ doc v root, reader.parse doc = .ok (some v) → v.json = some root →
    conv.parse doc = .ok (some root)
  rejects : ∀ doc, reader.parse doc = .ok none → conv.parse doc = .ok none
  throws : ∀ doc what, reader.parse doc = .error what → conv.parse doc = .error what

variable {conv : Conversions} {reader : Reader} {root : Json} {doc : List UInt8}

theorem Conversions.Reads.parse_document (h : conv.Reads reader)
    (hdoc : IsDocument reader root doc) : conv.parse doc = .ok (some root) := by
  rcases hdoc with ⟨v, g, t, rest, hv, hg, ht, hrest, rfl⟩
  have hread := Reader.readValue_text Reader.stackLimit v t g rest ht hg hrest
  exact h.accepts _ v root (Reader.parse_eq_some.mpr ⟨rest, hread⟩) hv

/-! ## Conversions over the reader -/

/-- The conversions of whole numbers, over a reader. -/
def Conversions.ofReader (reader : Reader) : Conversions :=
  { whole [] .null with
    parse := fun doc ↦ (reader.parse doc).map fun parsed ↦ parsed.bind Value.json }

theorem Conversions.ofReader_reads (reader : Reader) : (ofReader reader).Reads reader where
  accepts doc v root hparse hroot := by
    show (reader.parse doc).map _ = _
    rw [hparse, Except.map, Option.bind_some, hroot]
  rejects doc hparse := by
    show (reader.parse doc).map _ = _
    rw [hparse]
    rfl
  throws doc what hparse := by
    show (reader.parse doc).map _ = _
    rw [hparse]
    rfl

/-- What the vendored reader does with the byte behind a document. -/
theorem Conversions.ofReader_looksBehind (double : List UInt8 → Option (List UInt8)) :
    (ofReader ⟨double, 0⟩).LooksBehind fun b ↦ (ofReader ⟨double, b⟩).parse := by
  refine ⟨fun b doc hb ↦ ?_, fun doc ↦ ?_⟩
  · show (Reader.parse _ doc).map _ = (Reader.parse _ doc).map _
    rw [Reader.parse_other double doc hb]
  · show (Reader.parse _ doc).map _ = (Reader.parse _ doc).map _ ∨
      ((Reader.parse _ doc).map _ = _ ∧ (Reader.parse _ doc).map _ = _) ∨
      (∃ what, (Reader.parse _ doc).map _ = _) ∧ (Reader.parse _ doc).map _ = _
    by_cases honly : Reader.OnlyOpen doc
    · right; left
      rw [Reader.parse_onlyOpen double honly, Reader.parse_onlyOpen double honly]
      exact ⟨rfl, rfl⟩
    · rcases Reader.parse_alike double honly with hsame | ⟨-, -, hthrows, hclosed⟩
      · left
        rw [hsame]
      · right; right
        rw [hthrows, hclosed]
        exact ⟨⟨_, rfl⟩, rfl⟩

/-- Members in any order, written one after the other, are a document. -/
theorem isDocument_object {ms : List (List UInt8 × Value)} (hne : ms ≠ [])
    (hstored : ∀ m ∈ ms, Value.Stored (Writer.ReadsBack reader) 999 m.2)
    (hroot : (Value.object (Value.setMembers [] ms)).json = some root) (rest : List UInt8) :
    IsDocument reader root (123 :: (Writer.writeMembers ms ++ [125]) ++ rest) := by
  have hmembers := Writer.separated_writeMembers hne fun m hm ↦
    Writer.isText_writeValue (hstored m hm)
  have htext : IsText reader.algebra standard Reader.stackLimit
      (.object (Value.setMembers [] ms)) (123 :: (Writer.writeMembers ms ++ [125])) :=
    .object hmembers
  have hbrace : ¬ Number (123 :: (Writer.writeMembers ms ++ [125])) :=
    not_number (by decide) rfl
  exact ⟨_, [], _, rest, hroot, .nil, htext, fun hnumber ↦ absurd hnumber hbrace, rfl⟩

/-! ## The body of a response -/

/-- A document is stored as what it stands for, however it is written.  A body that is none aborts
the program, throws, which takes 1000 brackets, or is what the reader takes for one. -/
theorem processJson_documents (hreads : conv.Reads reader)
    (hend : reader.beyond = 93 → ¬ Reader.EndsOpen doc)
    (hutf8 : ∀ v, reader.parse doc = .ok (some v) → v.json ≠ none) (book : OrderBook) :
    (∀ root, IsDocument reader root doc →
        processJson conv doc book = storeSnapshot conv root book) ∧
      (processJson conv doc book = .aborted book ∨
        (processJson conv doc book = .threw Reader.stackLimitExceeded book ∧
          Reader.stackLimit ≤ Reader.openers doc) ∨
        ∃ root, IsLenient reader root doc ∧
          processJson conv doc book = storeSnapshot conv root book) := by
  constructor
  · intro root hdoc
    rw [processJson, hreads.parse_document hdoc]
  · cases hparse : reader.parse doc with
    | error what =>
        have hread : Reader.readValue reader Reader.stackLimit doc = .error what := by
          unfold Reader.parse at hparse
          cases hread : Reader.readValue reader Reader.stackLimit doc with
          | ok r =>
              rw [hread] at hparse
              cases hparse
          | error what' =>
              rw [hread] at hparse
              cases hparse
              rfl
        rcases Reader.readValue_error hread with ⟨rfl, hopeners⟩
        refine .inr (.inl ⟨?_, hopeners⟩)
        rw [processJson, hreads.throws doc _ hparse]
    | ok parsed =>
        cases parsed with
        | none =>
            refine .inl ?_
            rw [processJson, hreads.rejects doc hparse]
        | some v =>
            rcases Reader.parse_eq_some.mp hparse with ⟨rest, hread⟩
            rcases Reader.text_of_readValue hend hread with ⟨g, t, hg, ht, hdoc⟩
            rcases Option.ne_none_iff_exists'.mp (hutf8 v hparse) with ⟨root, hroot⟩
            refine .inr (.inr ⟨root, ⟨v, g, t, rest, hroot, hg, ht, hdoc⟩, ?_⟩)
            rw [processJson, hreads.accepts doc v root hparse hroot]

/-- The members of a document with these levels, in the order of its text. -/
def sideMembers (bids asks : List Value) : List (List UInt8 × Value) :=
  [(ascii "timestamp", .string (ascii "5")), (ascii "bids", .array bids),
    (ascii "asks", .array asks)]

def levelAt (price : String) : Value := .array [.string (ascii price), .string (ascii "1")]

theorem sideMembers_stored {Real : List UInt8 → Prop} {bids asks : List Value}
    (hbids : ∀ v ∈ bids, Value.Stored Real 998 v) (hasks : ∀ v ∈ asks, Value.Stored Real 998 v) :
    ∀ m ∈ sideMembers bids asks, Value.Stored Real 999 m.2 := by
  intro m hm
  simp only [sideMembers, List.mem_cons, List.not_mem_nil, or_false] at hm
  rcases hm with rfl | rfl | rfl
  · exact .string
  · exact .array hbids
  · exact .array hasks

theorem levelAt_stored {Real : List UInt8 → Prop} (price : String) :
    Value.Stored Real 998 (levelAt price) := by
  refine .array fun v hv ↦ ?_
  simp only [List.mem_cons, List.not_mem_nil, or_false] at hv
  rcases hv with rfl | rfl
  · exact .string
  · exact .string

theorem processJson_documents_example :
    let doc := 123 ::
      (Writer.writeMembers (sideMembers [levelAt "3"] [levelAt "4"]) ++ [125]) ++ [32]
    let root : Json := .object [("asks", .array [.array [.string "4", .string "1"]]),
      ("bids", .array [.array [.string "3", .string "1"]]), ("timestamp", .string "5")]
    processJson (.ofReader Reader.wholeNumbers) doc (.new 3) =
      storeSnapshot (.ofReader Reader.wholeNumbers) root (.new 3) := by
  intro doc root
  have hreads : (Conversions.ofReader Reader.wholeNumbers).Reads Reader.wholeNumbers :=
    Conversions.ofReader_reads _
  have hbids : ∀ v ∈ [levelAt "3"],
      Value.Stored (Writer.ReadsBack Reader.wholeNumbers) 998 v :=
    List.forall_mem_singleton.mpr (levelAt_stored "3")
  have hasks : ∀ v ∈ [levelAt "4"],
      Value.Stored (Writer.ReadsBack Reader.wholeNumbers) 998 v :=
    List.forall_mem_singleton.mpr (levelAt_stored "4")
  have hdoc : IsDocument Reader.wholeNumbers root doc :=
    isDocument_object (List.cons_ne_nil _ _) (sideMembers_stored hbids hasks) rfl [32]
  have hbeyond : Reader.wholeNumbers.beyond ≠ 93 := by decide
  refine (processJson_documents hreads (fun hclose ↦ absurd hclose hbeyond) ?_ _).1 _ hdoc
  intro v hparse hnone
  -- the reader's value of this document has a text for every string
  have hvalue := hreads.parse_document hdoc
  have hmap : (Reader.wholeNumbers.parse doc).map (fun parsed ↦ parsed.bind Value.json) =
      .ok (some root) := hvalue
  rw [hparse, Except.map, Option.bind_some, hnone] at hmap
  cases hmap

/-! ## The payload of a frame -/

/-- The payload is a message: a document with the text of another document in its `data`. -/
def IsMessage (reader : Reader) (root : Json) (payload : List UInt8) : Prop :=
  ∃ message data, IsDocument reader message payload ∧ message.member "data" = .ok (.string data) ∧
    IsDocument reader root data.toUTF8.toList

/-- A message lists the orders of what is in its `data`, however both are written. -/
theorem Conversions.Reads.payloadOrders_message (h : conv.Reads reader) {payload : List UInt8}
    (hmessage : IsMessage reader root payload) :
    payloadOrders conv payload = dataOrders conv root := by
  rcases hmessage with ⟨message, data, houter, hmember, hinner⟩
  have hcarries : Carries conv payload root :=
    ⟨message, .string data, data, h.parse_document houter, hmember, rfl, rfl,
      h.parse_document hinner⟩
  exact hcarries.payloadOrders_eq

end Tob
