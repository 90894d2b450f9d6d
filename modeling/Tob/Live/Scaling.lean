import Tob.Diff.AllOrNothing
import Tob.Live.Replay

/-!
# Levels after scaling

Prices and amounts arrive as decimals and go into the book in whole millionths.  What is left of an
amount below a millionth is zero, which takes a level away, and prices that differ below a millionth
are one price.
-/

open LastWrite

namespace Tob

/-! ## Decimals -/

/-- The value of the digits before and behind a point; there is at least one digit. -/
def pointValue (whole fraction : List Char) : Option ℚ :=
  if whole ++ fraction = [] then none
  else (decimal 0 (whole ++ fraction)).map fun value ↦ value / 10 ^ fraction.length

/-- The exact value of a decimal text. -/
def decimalValue (text : String) : Option ℚ :=
  match text.toList.splitOn '.' with
  | [whole] => pointValue whole []
  | [whole, fraction] => pointValue whole fraction
  | _ => none

/-- `q * 1000000`, truncated. -/
def millionths (q : ℚ) : Nat := ⌊q * 1000000⌋₊

/-- Decimal texts are read exactly, and what is in range is truncated to a `uint64_t`. -/
def Conversions.ReadsExactly (conv : Conversions) : Prop :=
  ∀ text q, decimalValue text = some q → millionths q < 2 ^ 64 →
    conv.scaled text = .ok (UInt64.ofNat (millionths q))

def Conversions.exact (docs : List (List UInt8 × Json)) : Conversions :=
  { documents docs with
    scaled := fun text ↦ match decimalValue text with
      | some q => .ok (UInt64.ofNat (millionths q))
      | none => .error "stod" }

theorem Conversions.exact_readsExactly (docs : List (List UInt8 × Json)) :
    (exact docs).ReadsExactly := by
  intro text q hvalue _
  simp only [exact, hvalue]

theorem one_le_millionths_iff (q : ℚ) : 1 ≤ millionths q ↔ 1 / 1000000 ≤ q := by
  rw [millionths, Nat.one_le_floor_iff, div_le_iff₀ (by norm_num)]

/-! ## Lists of levels -/

/-- Element `index` of a level has the text of a number in range. -/
def ListsNumber (level : Json) (index : Nat) (q : ℚ) : Prop :=
  millionths q < 2 ^ 64 ∧
    ∃ text, (level.element index).bind Json.asString = .ok text ∧ decimalValue text = some q

/-- A level lists a price and an amount. -/
def ListsLevel (level : Json) (entry : ℚ × ℚ) : Prop :=
  ListsNumber level 0 entry.1 ∧ ListsNumber level 1 entry.2

/-- The document lists these bids and asks. -/
structure Lists (conv : Conversions) (root : Json) (timestamp : UInt64)
    (bids asks : List (ℚ × ℚ)) : Prop where
  timestamp : jsonTimestamp conv root = .ok timestamp
  bids : ∃ value, root.member "bids" = .ok value ∧ List.Forall₂ ListsLevel value.values bids
  asks : ∃ value, root.member "asks" = .ok value ∧ List.Forall₂ ListsLevel value.values asks

/-- The price and the amount the book gets. -/
def scaledLevel (entry : ℚ × ℚ) : UInt64 × UInt64 :=
  (UInt64.ofNat (millionths entry.1), UInt64.ofNat (millionths entry.2))

def InRange (entries : List (ℚ × ℚ)) : Prop :=
  ∀ e ∈ entries, millionths e.1 < 2 ^ 64 ∧ millionths e.2 < 2 ^ 64

theorem inRange_of_lists {values : List Json} {entries : List (ℚ × ℚ)}
    (h : List.Forall₂ ListsLevel values entries) : InRange entries := by
  induction h with
  | nil => exact fun e he ↦ absurd he List.not_mem_nil
  | cons hlevel _ ih => exact List.forall_mem_cons.mpr ⟨⟨hlevel.1.1, hlevel.2.1⟩, ih⟩

namespace Conversions

variable {conv : Conversions}

theorem ReadsExactly.scaled_element (hconv : conv.ReadsExactly) {level : Json} {index : Nat} {q : ℚ}
    (h : ListsNumber level index q) :
    ((level.element index).bind Json.asString).bind conv.scaled =
      .ok (UInt64.ofNat (millionths q)) := by
  rcases h with ⟨hrange, text, htext, hvalue⟩
  rw [htext]
  exact hconv text q hvalue hrange

theorem ReadsExactly.level_eq (hconv : conv.ReadsExactly) {level : Json} {entry : ℚ × ℚ}
    (h : ListsLevel level entry) : conv.level level = .ok (scaledLevel entry) := by
  unfold Conversions.level
  rw [hconv.scaled_element h.1]
  simp only
  rw [hconv.scaled_element h.2]
  rfl

theorem ReadsExactly.levels_eq (hconv : conv.ReadsExactly) {values : List Json}
    {entries : List (ℚ × ℚ)} (h : List.Forall₂ ListsLevel values entries) :
    conv.levels values = (entries.map scaledLevel, none) := by
  induction h with
  | nil => rfl
  | cons hlevel _ ih =>
      rw [levels, hconv.level_eq hlevel, ih]
      rfl

end Conversions

theorem Lists.isSnapshot {conv : Conversions} (hconv : conv.ReadsExactly) {root : Json}
    {timestamp : UInt64} {bids asks : List (ℚ × ℚ)} (h : Lists conv root timestamp bids asks) :
    IsSnapshot conv root timestamp (bids.map scaledLevel) (asks.map scaledLevel) := by
  rcases h.bids with ⟨b, hb, hbids⟩
  rcases h.asks with ⟨a, ha, hasks⟩
  exact ⟨h.timestamp, ⟨b, hb, hconv.levels_eq hbids⟩, ⟨a, ha, hconv.levels_eq hasks⟩⟩

/-- Every amount comes to a millionth, and no two prices have the same whole millionths. -/
structure Resolved (entries : List (ℚ × ℚ)) : Prop where
  amounts : ∀ e ∈ entries, 1 / 1000000 ≤ e.2
  prices : entries.Pairwise fun a b ↦ millionths a.1 ≠ millionths b.1

theorem ofNat_inj {a b : Nat} (ha : a < 2 ^ 64) (hb : b < 2 ^ 64) :
    UInt64.ofNat a = UInt64.ofNat b ↔ a = b := by
  rw [← UInt64.toNat_inj, UInt64.toNat_ofNat_of_lt' ha, UInt64.toNat_ofNat_of_lt' hb]

/-- Each write to an empty side leaves a level of its own. -/
structure OwnLevels (ws : List (UInt64 × UInt64)) : Prop where
  amounts : ∀ w ∈ ws, w.2 ≠ 0
  prices : (ws.map Prod.fst).Nodup

theorem ownLevels_nil : OwnLevels [] := ⟨fun _ hw ↦ absurd hw List.not_mem_nil, List.nodup_nil⟩

/-- In range nothing else is lost by scaling. -/
theorem resolved_iff {entries : List (ℚ × ℚ)} (hrange : InRange entries) :
    Resolved entries ↔ OwnLevels (entries.map scaledLevel) := by
  have hamounts : (∀ w ∈ entries.map scaledLevel, w.2 ≠ 0) ↔ ∀ e ∈ entries, 1 / 1000000 ≤ e.2 := by
    rw [List.forall_mem_map]
    apply forall₂_congr
    intro e he
    -- in range the conversion to 64 bits loses nothing more
    have hzero : (scaledLevel e).2 = 0 ↔ millionths e.2 = 0 :=
      ofNat_inj (hrange e he).2 (by decide)
    rw [Ne, hzero, ← one_le_millionths_iff, Nat.one_le_iff_ne_zero]
  have hprices : ((entries.map scaledLevel).map Prod.fst).Nodup ↔
      entries.Pairwise fun a b ↦ millionths a.1 ≠ millionths b.1 := by
    rw [List.map_map, List.Nodup, List.pairwise_map]
    apply List.Pairwise.iff_of_mem
    intro a b ha hb
    exact not_congr (ofNat_inj (hrange a ha).1 (hrange b hb).1)
  exact ⟨fun h ↦ ⟨hamounts.mpr h.amounts, hprices.mpr h.prices⟩,
    fun h ↦ ⟨hamounts.mp h.amounts, hprices.mp h.prices⟩⟩

/-! ## An empty book -/

/-- The levels of a side that was empty are the writes exactly if each has left one. -/
theorem LimitedMap.Holds.levels_perm_iff {lt : UInt64 → UInt64 → Prop}
    [IsStrictTotalOrder UInt64 lt] {side : LimitedMap UInt64 UInt64 lt} {depth : Nat}
    {ws : List (UInt64 × UInt64)}
    (h : side.Holds depth (applyWrites (fun _ ↦ 0) ws)) :
    side.levels.Perm ws ↔ OwnLevels ws := by
  have hkeys := h.map_fst_levels
  have hmem (w : UInt64 × UInt64) : w ∈ side.levels ↔
      (lastWrite ws w.1).getD 0 = w.2 ∧ w.2 ≠ 0 := by
    rw [← applyWrites_apply (fun _ ↦ 0) ws w.1]
    exact h.mem_levels_iff
  constructor
  · intro hp
    refine ⟨fun w hw ↦ ((hmem w).mp (hp.mem_iff.mpr hw)).2, ?_⟩
    rw [← (hp.map Prod.fst).nodup_iff, hkeys]
    exact side.mMap.nodup_keys
  · intro hws
    have hlevels : side.levels.Nodup := List.Nodup.of_map Prod.fst (hkeys ▸ side.mMap.nodup_keys)
    rw [List.perm_ext_iff_of_nodup hlevels (List.Nodup.of_map _ hws.prices)]
    intro w
    rw [hmem]
    constructor
    · rintro ⟨hlast, hamount⟩
      cases hl : lastWrite ws w.1 with
      -- a price nothing is written to has amount zero, which is no level
      | none =>
          rw [hl] at hlast
          exact absurd hlast.symm hamount
      | some v =>
          rw [hl, Option.getD_some] at hlast
          rw [← hlast] at hamount
          have hw := mem_of_lastWrite_eq_some hl
          rw [hlast] at hw
          exact hw
    · intro hw
      -- no other write has this price
      rw [lastWrite_eq_some_of_mem hws.prices hw]
      exact ⟨rfl, hws.amounts w hw⟩

theorem LimitedMap.Holds.levels_nil {lt : UInt64 → UInt64 → Prop} [IsStrictTotalOrder UInt64 lt]
    {side : LimitedMap UInt64 UInt64 lt} {depth : Nat} (h : side.Holds depth fun _ ↦ 0) :
    side.levels = [] := List.perm_nil.mp (h.levels_perm_iff.mpr ownLevels_nil)

namespace OrderBook

theorem Refines.ledger_empty {book : OrderBook} {depth : Nat} {l : Ledger}
    (h : book.Refines depth l) (hempty : book.toBool = false) :
    l.bids = (fun _ ↦ 0) ∧ l.asks = fun _ ↦ 0 := by
  have hnone : ¬ ∃ p, l.bids p ≠ 0 ∨ l.asks p ≠ 0 := by
    rw [← h.toBool_iff, hempty]
    exact Bool.false_ne_true
  simp only [not_exists, not_or, not_not] at hnone
  exact ⟨funext fun p ↦ (hnone p).1, funext fun p ↦ (hnone p).2⟩

/-- A document that goes into an empty book leaves a level for each of its writes exactly if the
book does not take it for an old one, and no write takes away or replaces another. -/
theorem Refines.addAll_document_iff {book book' : OrderBook} {depth : Nat} {l : Ledger}
    (h : book.Refines depth l) (hempty : book.toBool = false) {t : UInt64}
    {bids asks : List (UInt64 × UInt64)}
    (hadd : book.addAll (levelOrders Order.BUY t bids ++ levelOrders Order.SELL t asks) =
      some book') :
    book'.mBid.levels.Perm bids ∧ book'.mAsk.levels.Perm asks ↔
      (bids = [] ∧ asks = [] ∨ book.getLastTimestamp ≤ t) ∧ OwnLevels bids ∧ OwnLevels asks := by
  have htime : ∀ o ∈ levelOrders Order.BUY t bids ++ levelOrders Order.SELL t asks,
      o.timestamp = t := fun o ↦ levelOrders_timestamp
  rcases h.ledger_empty hempty with ⟨hnobids, hnoasks⟩
  rcases h.addAll (levelOrders Order.BUY t bids ++ levelOrders Order.SELL t asks) with
    ⟨added, he, hadded⟩
  cases he.symm.trans hadd
  rw [show book.getLastTimestamp = l.last from h.last]
  by_cases hold : l.last ≤ t
  · have hall := since_eq_self fun o ho ↦ le_of_le_of_eq hold (htime o ho).symm
    -- the book lets everything in
    have hwrites := Ledger.addAll_writes (chronological_of_timestamp htime) l
    rw [hall, (writes_document t bids asks).1, (writes_document t bids asks).2, hnobids,
      hnoasks] at hwrites
    have hbids := hadded.bids
    have hasks := hadded.asks
    rw [hwrites.1] at hbids
    rw [hwrites.2] at hasks
    rw [hbids.levels_perm_iff, hasks.levels_perm_iff]
    exact ⟨fun hown ↦ ⟨.inr hold, hown⟩, fun hown ↦ hown.2⟩
  · -- the book filters out what is older than its last order
    have hstale : l.addAll (levelOrders Order.BUY t bids ++ levelOrders Order.SELL t asks) = l :=
      Ledger.addAll_stale fun o ho ↦ (htime o ho).symm ▸ not_le.mp hold
    rw [hstale] at hadded
    have hbids := hadded.bids
    have hasks := hadded.asks
    rw [hnobids] at hbids
    rw [hnoasks] at hasks
    rw [hbids.levels_nil, hasks.levels_nil, List.nil_perm, List.nil_perm]
    constructor
    · rintro ⟨rfl, rfl⟩
      exact ⟨.inl ⟨rfl, rfl⟩, ownLevels_nil, ownLevels_nil⟩
    · rintro ⟨hnone, -⟩
      exact hnone.resolve_right hold

end OrderBook

/-! ## The two ways in -/

/-- The payload is a message with the document as a text in its `data`. -/
structure Carries (conv : Conversions) (payload : List UInt8) (root : Json) : Prop where
  text : ∃ message value text, conv.parse payload = .ok (some message) ∧
    message.member "data" = .ok value ∧ value.isNull = false ∧ value.asString = .ok text ∧
    conv.parse text.toUTF8.toList = .ok (some root)

theorem Carries.payloadOrders_eq {conv : Conversions} {payload : List UInt8} {root : Json}
    (h : Carries conv payload root) : payloadOrders conv payload = dataOrders conv root := by
  rcases h.text with ⟨message, value, text, hmessage, hvalue, hnull, htext, hroot⟩
  have hparse : (value.asString.bind fun text ↦ conv.parse text.toUTF8.toList) =
      .ok (some root) := by
    rw [htext]
    exact hroot
  rw [payloadOrders, hmessage, parsedOrders, messageOrders]
  simp only [hvalue, hnull, hparse]
  rfl

/-- The book has one level for each entry, with its price and its amount. -/
structure OneLevelPerEntry (book : OrderBook) (bids asks : List (ℚ × ℚ)) : Prop where
  bids : book.mBid.levels.Perm (bids.map scaledLevel)
  asks : book.mAsk.levels.Perm (asks.map scaledLevel)

/-- The entries are not older than the book, and scaling tells them apart. -/
structure KeptApart (book : OrderBook) (timestamp : UInt64) (bids asks : List (ℚ × ℚ)) : Prop where
  recent : bids = [] ∧ asks = [] ∨ book.getLastTimestamp ≤ timestamp
  bids : Resolved bids
  asks : Resolved asks

section Empty

variable {conv : Conversions} {depth : Nat} {l : Ledger} {book : OrderBook} {root : Json}
  {t : UInt64} {bids asks : List (ℚ × ℚ)}

theorem oneLevelPerEntry_addAll_iff (h : book.Refines depth l) (hempty : book.toBool = false)
    (hlists : Lists conv root t bids asks) :
    (∃ book', book.addAll (levelOrders Order.BUY t (bids.map scaledLevel) ++
        levelOrders Order.SELL t (asks.map scaledLevel)) = some book' ∧
      OneLevelPerEntry book' bids asks) ↔ KeptApart book t bids asks := by
  rcases h.addAll (levelOrders Order.BUY t (bids.map scaledLevel) ++
    levelOrders Order.SELL t (asks.map scaledLevel)) with ⟨added, hadd, -⟩
  rcases hlists.bids with ⟨b, -, hbids⟩
  rcases hlists.asks with ⟨a, -, hasks⟩
  have hiff := h.addAll_document_iff hempty hadd
  rw [List.map_eq_nil_iff, List.map_eq_nil_iff, ← resolved_iff (inRange_of_lists hbids),
    ← resolved_iff (inRange_of_lists hasks)] at hiff
  constructor
  · rintro ⟨book', hadd', hone⟩
    cases hadd.symm.trans hadd'
    rcases hiff.mp ⟨hone.bids, hone.asks⟩ with ⟨hrecent, hb, ha⟩
    exact ⟨hrecent, hb, ha⟩
  · intro hkept
    rcases hiff.mpr ⟨hkept.recent, hkept.bids, hkept.asks⟩ with ⟨hb, ha⟩
    exact ⟨added, hadd, hb, ha⟩

theorem processJson_oneLevel_iff (hconv : conv.ReadsExactly) (h : book.Refines depth l)
    (hempty : book.toBool = false) (hlists : Lists conv root t bids asks) {body : List UInt8}
    (hbody : conv.parse body = .ok (some root)) :
    (∃ book', processJson conv body book = .returned book' ∧ OneLevelPerEntry book' bids asks) ↔
      KeptApart book t bids asks := by
  rw [← oneLevelPerEntry_addAll_iff h hempty hlists]
  unfold processJson
  rw [hbody]
  simp only [(hlists.isSnapshot hconv).storeSnapshot_eq, addThen]
  apply exists_congr
  intro book'
  apply and_congr_left'
  cases book.addAll (levelOrders Order.BUY t (bids.map scaledLevel) ++
    levelOrders Order.SELL t (asks.map scaledLevel)) with
  | none => simp only [reduceCtorEq]
  | some added => rw [Outcome.returned.injEq, Option.some_inj]

variable {n : Nat}

theorem onRead_oneLevel_iff (hconv : conv.ReadsExactly) (h : book.Refines depth l)
    (hempty : book.toBool = false) (hlists : Lists conv root t bids asks) {d : DiffLogic n}
    (hwork : d.InWork) (hqueue : d.mOrders.mOrders = []) {w : WireFrame}
    (hcarries : Carries conv w.plain root) {chunks : List (List UInt8)}
    (hfits : d.Fits conv chunks) {ws : List WireFrame}
    (hstream : d.pending ++ chunks.flatten <+: WireFrame.stream (w :: ws))
    (hserved : d.servedFrames (w :: ws) chunks = 1) :
    (∃ d' book', d.onRead conv chunks = .returned d' ∧
      Orders.drain (n := n) book d'.mOrders.mOrders = some (book', .empty) ∧
      OneLevelPerEntry book' bids asks) ↔
      bids.length + asks.length ≤ n ∧ KeptApart book t bids asks := by
  have hcall := DiffLogic.onRead_orders conv hwork hfits hstream hserved
  have hlength : (levelOrders Order.BUY t (bids.map scaledLevel) ++
      levelOrders Order.SELL t (asks.map scaledLevel)).length = bids.length + asks.length := by
    simp only [levelOrders, List.length_append, List.length_map]
  rw [hcarries.payloadOrders_eq, (hlists.isSnapshot hconv).dataOrders_eq] at hcall
  rw [← oneLevelPerEntry_addAll_iff h hempty hlists, ← hlength]
  generalize levelOrders Order.BUY t (bids.map scaledLevel) ++
    levelOrders Order.SELL t (asks.map scaledLevel) = batch at hcall
  -- the drain passes on what is queued
  have hdrain (queue : List Order) (book' : OrderBook) :
      Orders.drain (n := n) book queue = some (book', .empty) ↔ book.addAll queue = some book' := by
    rw [Orders.drain_eq, Option.map_eq_some_iff]
    constructor
    · rintro ⟨drained, hadd, heq⟩
      rw [hadd, (Prod.mk.inj heq).1]
    · intro hadd
      exact ⟨book', hadd, rfl⟩
  constructor
  · rintro ⟨d', book', hread, hdrained, hone⟩
    rw [hread] at hcall
    -- a call that has returned has queued all of the batch
    rcases (Orders.storeThen_returns_iff hqueue batch).mp hcall.symm with ⟨hroom, hbatch⟩
    rw [hdrain, hbatch] at hdrained
    exact ⟨hroom, book', hdrained, hone⟩
  · rintro ⟨hroom, book', hadd, hone⟩
    have hstored : d.mOrders.storeThen batch .returns = .returned ⟨batch⟩ :=
      (Orders.storeThen_returns_iff hqueue batch).mpr ⟨hroom, rfl⟩
    rw [hstored] at hcall
    rcases Outcome.map_eq_returned_iff.mp hcall with ⟨d', hread, horders⟩
    exact ⟨d', book', hread, by rw [horders, hdrain]; exact hadd, hone⟩

/-- What goes into an empty book, from a snapshot or through the order queue, leaves one level for
each entry exactly if the book has no later order, no amount is below a millionth, no two prices of
a side agree in their whole millionths, and, on the way through the queue, the pool has room. -/
theorem oneLevelPerEntry_iff (n : Nat) (hconv : conv.ReadsExactly) {calls : List BookCall}
    (hrun : (OrderBook.new depth).run calls = some book) (hempty : book.toBool = false)
    (hlists : Lists conv root t bids asks) :
    (∀ body, conv.parse body = .ok (some root) →
      ((∃ book', processJson conv body book = .returned book' ∧
        OneLevelPerEntry book' bids asks) ↔ KeptApart book t bids asks)) ∧
    (∀ (d : DiffLogic n) (w : WireFrame) (ws : List WireFrame) (chunks : List (List UInt8)),
      d.InWork → d.mOrders.mOrders = [] → Carries conv w.plain root → d.Fits conv chunks →
      d.pending ++ chunks.flatten <+: WireFrame.stream (w :: ws) →
      d.servedFrames (w :: ws) chunks = 1 →
      ((∃ d' book', d.onRead conv chunks = .returned d' ∧
        Orders.drain (n := n) book d'.mOrders.mOrders = some (book', .empty) ∧
        OneLevelPerEntry book' bids asks) ↔
        bids.length + asks.length ≤ n ∧ KeptApart book t bids asks)) := by
  rcases (OrderBook.refines_new depth).of_run hrun with ⟨l, h⟩
  constructor
  · intro body hbody
    exact processJson_oneLevel_iff hconv h hempty hlists hbody
  · intro d w ws chunks hwork hqueue hcarries hfits hstream hserved
    exact onRead_oneLevel_iff hconv h hempty hlists hwork hqueue hcarries hfits hstream hserved

end Empty

/-! ## Two documents -/

/-- Bids of 0.5 at 1.25 and of 2 at 1, and an ask of 1 at 1.5. -/
def ladderRoot : Json :=
  .object [("asks", .array [.array [.string "1.5", .string "1"]]),
    ("bids", .array [.array [.string "1.25", .string "0.5"], .array [.string "1", .string "2"]]),
    ("timestamp", .string "5")]

def ladderText : String :=
  "\x7b\"timestamp\":\"5\",\"bids\":[[\"1.25\",\"0.5\"],[\"1\",\"2\"]]," ++
    "\"asks\":[[\"1.5\",\"1\"]]\x7d"

def ladderBids : List (ℚ × ℚ) := [(5 / 4, 1 / 2), (1, 2)]

def ladderAsks : List (ℚ × ℚ) := [(3 / 2, 1)]

def ladderMessage : Json := .object [("data", .string ladderText)]

def ladderPayload : List UInt8 :=
  ascii ("\x7b\"data\":\"\x7b\\\"timestamp\\\":\\\"5\\\",\\\"bids\\\":" ++
    "[[\\\"1.25\\\",\\\"0.5\\\"],[\\\"1\\\",\\\"2\\\"]]," ++
    "\\\"asks\\\":[[\\\"1.5\\\",\\\"1\\\"]]\x7d\"\x7d")

def ladderFrame : WireFrame := ⟨0x81, .short, none, ladderPayload, by decide +kernel⟩

def ladderConv : Conversions :=
  .exact [(ladderPayload, ladderMessage), (ascii ladderText, ladderRoot)]

theorem ladderRoot_lists : Lists ladderConv ladderRoot 5 ladderBids ladderAsks := by
  refine ⟨rfl, ⟨_, rfl, .cons ⟨?_, ?_⟩ (.cons ⟨?_, ?_⟩ .nil)⟩, ⟨_, rfl, .cons ⟨?_, ?_⟩ .nil⟩⟩
  · exact ⟨by decide +kernel, "1.25", rfl, by decide +kernel⟩
  · exact ⟨by decide +kernel, "0.5", rfl, by decide +kernel⟩
  · exact ⟨by decide +kernel, "1", rfl, by decide +kernel⟩
  · exact ⟨by decide +kernel, "2", rfl, by decide +kernel⟩
  · exact ⟨by decide +kernel, "1.5", rfl, by decide +kernel⟩
  · exact ⟨by decide +kernel, "1", rfl, by decide +kernel⟩

theorem ladderFrame_carries : Carries ladderConv ladderFrame.plain ladderRoot := by
  have htext : ladderText.toUTF8.toList = ascii ladderText := by decide +kernel
  refine ⟨ladderMessage, .string ladderText, ladderText, rfl, rfl, rfl, rfl, ?_⟩
  rw [htext]
  rfl

/-- A client whose pool has room for three orders. -/
def roomForThree : DiffLogic 3 := ⟨0x10000, 0, List.replicate BUFFER_SIZE 0, .inWork, [], .empty⟩

theorem ladder_keptApart : KeptApart (.new 3) 5 ladderBids ladderAsks := by
  refine ⟨.inr (by decide), ⟨?_, ?_⟩, ⟨?_, ?_⟩⟩
  all_goals decide +kernel

theorem oneLevelPerEntry_iff_example :
    (∃ book', processJson ladderConv (ascii ladderText) (.new 3) = .returned book' ∧
      OneLevelPerEntry book' ladderBids ladderAsks) ∧
    ∃ d' book', roomForThree.onRead ladderConv [ladderFrame.bytes] = .returned d' ∧
      Orders.drain (n := 3) (.new 3) d'.mOrders.mOrders = some (book', .empty) ∧
      OneLevelPerEntry book' ladderBids ladderAsks := by
  have hrun : (OrderBook.new 3).run [] = some (.new 3) := rfl
  have hiff := oneLevelPerEntry_iff 3 (Conversions.exact_readsExactly _) hrun rfl ladderRoot_lists
  have hwork : roomForThree.InWork := ⟨⟨List.length_replicate, Nat.zero_le _, by decide⟩, rfl⟩
  have hfits : roomForThree.Fits ladderConv [ladderFrame.bytes] :=
    ⟨by decide, by decide, fun _ _ ↦ trivial⟩
  have hstream : roomForThree.pending ++ [ladderFrame.bytes].flatten <+:
      WireFrame.stream [ladderFrame] := by
    have hpending : roomForThree.pending = [] := rfl
    rw [hpending]
    exact List.prefix_refl _
  have hserved : roomForThree.servedFrames [ladderFrame] [ladderFrame.bytes] = 1 := by
    decide +kernel
  exact ⟨(hiff.1 (ascii ladderText) rfl).mpr ladder_keptApart,
    (hiff.2 roomForThree ladderFrame [] [ladderFrame.bytes] hwork rfl
      ladderFrame_carries hfits hstream hserved).mpr ⟨by decide, ladder_keptApart⟩⟩

/-- Two bids less than a millionth apart, and an ask below a millionth. -/
def closeRoot : Json :=
  .object [("asks", .array [.array [.string "2", .string "0.0000001"]]),
    ("bids", .array [.array [.string "1.0000001", .string "1"],
      .array [.string "1.0000002", .string "3"]]),
    ("timestamp", .string "5")]

def closeText : List UInt8 :=
  ascii ("\x7b\"timestamp\":\"5\",\"bids\":[[\"1.0000001\",\"1\"],[\"1.0000002\",\"3\"]]," ++
    "\"asks\":[[\"2\",\"0.0000001\"]]\x7d")

def closeBids : List (ℚ × ℚ) := [(1.0000001, 1), (1.0000002, 3)]

def closeAsks : List (ℚ × ℚ) := [(2, 0.0000001)]

def closeConv : Conversions := .exact [(closeText, closeRoot)]

theorem closeRoot_lists : Lists closeConv closeRoot 5 closeBids closeAsks := by
  refine ⟨rfl, ⟨_, rfl, .cons ⟨?_, ?_⟩ (.cons ⟨?_, ?_⟩ .nil)⟩, ⟨_, rfl, .cons ⟨?_, ?_⟩ .nil⟩⟩
  · exact ⟨by decide +kernel, "1.0000001", rfl, by decide +kernel⟩
  · exact ⟨by decide +kernel, "1", rfl, by decide +kernel⟩
  · exact ⟨by decide +kernel, "1.0000002", rfl, by decide +kernel⟩
  · exact ⟨by decide +kernel, "3", rfl, by decide +kernel⟩
  · exact ⟨by decide +kernel, "2", rfl, by decide +kernel⟩
  · exact ⟨by decide +kernel, "0.0000001", rfl, by decide +kernel⟩

/-- One of the bids replaces the other, and the ask is taken for a deletion. -/
theorem scaling_loses_levels :
    closeConv.ReadsExactly ∧ Lists closeConv closeRoot 5 closeBids closeAsks ∧
      (∀ e ∈ closeBids ++ closeAsks, 0 < e.2) ∧ (closeBids.map Prod.fst).Nodup ∧
      (closeAsks.map Prod.fst).Nodup ∧
      ∃ book, processJson closeConv closeText (.new 3) = .returned book ∧
        book.mBid.levels = [(1000000, 3000000)] ∧ book.mAsk.levels = [] ∧
        ¬ OneLevelPerEntry book closeBids closeAsks := by
  have hbids : closeBids.map scaledLevel = [(1000000, 1000000), (1000000, 3000000)] := by
    decide +kernel
  have hasks : closeAsks.map scaledLevel = [(2000000, 0)] := by decide +kernel
  have hconv : closeConv.ReadsExactly := Conversions.exact_readsExactly _
  refine ⟨hconv, closeRoot_lists, by decide +kernel, by decide +kernel, by decide +kernel, ?_⟩
  have hstored := (closeRoot_lists.isSnapshot hconv).storeSnapshot_eq (.new 3)
  rw [hbids, hasks] at hstored
  refine ⟨_, hstored, rfl, rfl, fun hone ↦ ?_⟩
  exact absurd hone.bids.length_eq (by decide)

end Tob
