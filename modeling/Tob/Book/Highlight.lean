import Tob.Book.Refinement

/-!
# Highlights

A level is printed in colour when its value differs from its previous value.  The previous value
tells what the last call that touched the level did to it, which is not always what the last print
showed of it.
-/

open OrderedContainer

namespace Tob

/-- What the last call that touched a level did to it: inserted it or pushed it right behind the
window, wrote over an amount, or printed it. -/
inductive Touch where
  | fresh
  | overwrote (old : UInt64)
  | printed
  deriving DecidableEq, Repr

/-- One side's past since the last `clear`: the levels that the last print showed, and the last
touch of every price. -/
structure History where
  shown : List (UInt64 × UInt64)
  touched : UInt64 → Touch

namespace History

def start : History := ⟨[], fun _ ↦ .fresh⟩

section Side

variable {lt : UInt64 → UInt64 → Prop}

/-- An order that is let in reaches the side. -/
def update [DecidableRel lt] (past : History) (side : LimitedMap UInt64 UInt64 lt)
    (order : Order) : History :=
  if order.amount = 0 then past
  else
    match side.valueAt order.price with
    | some old =>
        { past with touched := Function.update past.touched order.price (.overwrote old) }
    | none =>
        -- the insertion resets the level of rank `mDepth` too
        { past with
          touched := fun p ↦
            if p = order.price ∨
                (side.mMap.keys.orderedInsert lt order.price)[side.mDepth]? = some p then .fresh
            else past.touched p }

def print (past : History) (side : LimitedMap UInt64 UInt64 lt) : History where
  shown := side.visibleLevels
  touched p := if p ∈ side.mMap.keys.take side.mDepth then .printed else past.touched p

end Side

/-- The last touch of a level says whether the last print showed it with this amount. -/
def Telling (past : History) (price amount : UInt64) : Prop :=
  match past.touched price with
  | .fresh => (price, amount) ∉ past.shown
  | .overwrote old => old = amount ↔ (price, amount) ∈ past.shown
  | .printed => True

end History

/-- The histories of the two sides. -/
structure Histories where
  bids : History
  asks : History

namespace Histories

def start : Histories := ⟨.start, .start⟩

/-- One call on `book`. -/
def call (past : Histories) (book : OrderBook) : BookCall → Histories
  | .add order =>
      if order.timestamp < book.mLastTimestamp then past
      else if order.type = Order.BUY then
        { past with bids := past.bids.update book.mBid order }
      else if order.type = Order.SELL then
        { past with asks := past.asks.update book.mAsk order }
      else past
  | .clear => .start
  | .print => ⟨past.bids.print book.mBid, past.asks.print book.mAsk⟩

/-- A run that starts at `book`. -/
def run (past : Histories) (book : OrderBook) : List BookCall → Histories
  | [] => past
  | c :: calls =>
      match book.call c with
      | none => past
      | some book' => (past.call book c).run book' calls

end Histories

/-- The price and the amount on a line. -/
def PrintedLevel.level (line : PrintedLevel) : UInt64 × UInt64 := (line.price, line.amount)

/-- A line is in colour exactly if the last print did not show its level with its amount. -/
def Highlighted (shown : List (UInt64 × UInt64)) (color : String) (line : PrintedLevel) : Prop :=
  line.color = if line.level ∈ shown then none else some color

instance (shown : List (UInt64 × UInt64)) (color : String) (line : PrintedLevel) :
    Decidable (Highlighted shown color line) :=
  inferInstanceAs (Decidable (line.color = _))

/-! ## One side -/

namespace LimitedMap

variable {lt : UInt64 → UInt64 → Prop}

/-- What a touch has left in the previous value of a level. -/
def Left (side : LimitedMap UInt64 UInt64 lt) (past : History) (p : UInt64)
    (payload : Payload UInt64) : Touch → Prop
  | .fresh => payload.prevValue = 0
  | .overwrote old => payload.prevValue = old
  | .printed => payload.prevValue = payload.value ∧ p ∈ side.mMap.keys.take side.mDepth ∧
      (p, payload.value) ∈ past.shown

/-- Every previous value is what the last touch of its level left. -/
def Remembers (side : LimitedMap UInt64 UInt64 lt) (past : History) : Prop :=
  ∀ p payload, side.mMap.lookup p = some payload → Left side past p payload (past.touched p)

theorem remembers_new (depth : Nat) (past : History) :
    (new depth : LimitedMap UInt64 UInt64 lt).Remembers past := by
  intro p payload h
  cases h

theorem remembers_clear (side : LimitedMap UInt64 UInt64 lt) (past : History) :
    side.clear.Remembers past := by
  intro p payload h
  cases h

-- A level whose payload and place in the window stay is left as it was.
theorem Left.mono {side side' : LimitedMap UInt64 UInt64 lt} {past past' : History} {p : UInt64}
    {payload : Payload UInt64} {touch : Touch} (h : Left side past p payload touch)
    (hshown : past'.shown = past.shown)
    (htake : p ∈ side.mMap.keys.take side.mDepth → p ∈ side'.mMap.keys.take side'.mDepth) :
    Left side' past' p payload touch := by
  cases touch with
  | fresh => exact h
  | overwrote old => exact h
  | printed =>
      rcases h with ⟨hprev, hmem, hpast⟩
      exact ⟨hprev, htake hmem, hshown ▸ hpast⟩

theorem Remembers.erased {side side' : LimitedMap UInt64 UInt64 lt} {past : History}
    (h : side.Remembers past) {key : UInt64}
    (hl : Leaves side side' (side.mMap.keys.filter fun k ↦ k ≠ key)
      fun k ↦ if k = key then none else side.mMap.lookup k) : side'.Remembers past := by
  intro p payload hp
  rw [hl.lookup] at hp
  by_cases hk : p = key
  · rw [if_pos hk] at hp
    cases hp
  · rw [if_neg hk] at hp
    apply (h p payload hp).mono rfl
    intro hmem
    rw [hl.keys, hl.depth]
    exact mem_take_filter hmem (by simpa using hk)

theorem Remembers.overwritten {side side' : LimitedMap UInt64 UInt64 lt} {past : History}
    (h : side.Remembers past) {key value old : UInt64} (hold : side.valueAt key = some old)
    (hl : Leaves side side' side.mMap.keys fun k ↦
      if k = key then (side.mMap.lookup k).map fun p ↦ ⟨value, p.value⟩
      else side.mMap.lookup k) :
    side'.Remembers
      { past with touched := Function.update past.touched key (.overwrote old) } := by
  intro p payload hp
  rw [hl.lookup] at hp
  by_cases hk : p = key
  · rw [if_pos hk, Option.map_eq_some_iff] at hp
    rcases hp with ⟨q, hq, rfl⟩
    rw [valueAt, ← hk, hq, Option.map_some, Option.some_inj] at hold
    simp only [hk, Function.update_self]
    exact hold
  · rw [if_neg hk] at hp
    simp only [Function.update_of_ne hk]
    apply (h p payload hp).mono rfl
    intro hmem
    rwa [hl.keys, hl.depth]

theorem Remembers.inserted [DecidableRel lt] {side side' : LimitedMap UInt64 UInt64 lt}
    {past : History} (h : side.Remembers past) {key value : UInt64}
    (hl : Leaves side side' (side.mMap.keys.orderedInsert lt key) fun k ↦
      if k = key then some (.ofValue value)
      else if (side.mMap.keys.orderedInsert lt key)[side.mDepth]? = some k then
        (side.mMap.lookup k).map fun p ↦ ⟨p.value, 0⟩
      else side.mMap.lookup k) :
    side'.Remembers
      { past with
        touched := fun p ↦
          if p = key ∨ (side.mMap.keys.orderedInsert lt key)[side.mDepth]? = some p then .fresh
          else past.touched p } := by
  intro p payload hp
  rw [hl.lookup] at hp
  by_cases hk : p = key
  · rw [if_pos hk] at hp
    cases hp
    simp only [hk, true_or, if_true]
    rfl
  · rw [if_neg hk] at hp
    -- the level right behind the window is reset, every other one keeps its place or moves within
    by_cases hrank : (side.mMap.keys.orderedInsert lt key)[side.mDepth]? = some p
    · rw [if_pos hrank, Option.map_eq_some_iff] at hp
      rcases hp with ⟨q, -, rfl⟩
      simp only [hrank, or_true, if_true]
      rfl
    · rw [if_neg hrank] at hp
      simp only [hk, hrank, or_self, if_false]
      apply (h p payload hp).mono rfl
      intro hmem
      rw [hl.keys, hl.depth]
      exact mem_take_orderedInsert hmem hrank

/-- The line of a level is right exactly if the last touch of the level tells the truth. -/
theorem Remembers.highlighted_iff {side : LimitedMap UInt64 UInt64 lt} {past : History}
    (h : side.Remembers past) {p v : UInt64} (hv : side.valueAt p = some v) (hne : v ≠ 0)
    (color : String) :
    Highlighted past.shown color (side.lineAt color p) ↔ past.Telling p v := by
  rw [valueAt, Option.map_eq_some_iff] at hv
  rcases hv with ⟨payload, hlook, rfl⟩
  have hleft := h p payload hlook
  unfold Highlighted lineAt PrintedLevel.level History.Telling
  rw [hlook, Option.getD_some]
  simp only
  have hcolor (a b : Prop) [Decidable a] [Decidable b] :
      ((if a then some color else none) = if b then none else some color) ↔ (a ↔ ¬ b) := by
    by_cases ha : a
    · by_cases hb : b
      · simp [ha, hb]
      · simp [ha, hb]
    · by_cases hb : b
      · simp [ha, hb]
      · simp [ha, hb]
  rw [hcolor]
  cases htouch : past.touched p with
  | fresh =>
      rw [htouch] at hleft
      -- no amount is zero, so a new level is in colour
      have hdiff : payload.value ≠ payload.prevValue := fun he ↦ hne (he.trans hleft)
      simp only [hdiff, true_iff, ne_eq, not_false_iff]
  | overwrote old =>
      rw [htouch] at hleft
      rw [show payload.prevValue = old from hleft, ne_eq, not_iff_not, eq_comm]
  | printed =>
      rw [htouch] at hleft
      simp only [hleft.1, hleft.2.2, ne_eq, not_true_eq_false]

variable [IsStrictTotalOrder UInt64 lt]

theorem Remembers.update [DecidableRel lt] {side side' : LimitedMap UInt64 UInt64 lt}
    {past : History} (h : side.Remembers past) (hw : side.Window) {order : Order}
    (he : Tob.update side order = some side') : side'.Remembers (past.update side order) := by
  unfold Tob.update at he
  unfold History.update
  by_cases hz : order.amount = 0
  · rw [if_pos hz] at he ⊢
    rcases erase_leaves hw order.price with ⟨side₁, he₁, hl⟩
    cases he₁.symm.trans he
    exact h.erased hl
  · rw [if_neg hz] at he ⊢
    by_cases hmem : order.price ∈ side.mMap.keys
    · rcases OrderedMap.mem_keys_iff.mp hmem with ⟨q, hq⟩
      have hold : side.valueAt order.price = some q.value := by rw [valueAt, hq]; rfl
      rcases update_overwrites hw order.amount hmem with ⟨side₁, he₁, hl⟩
      cases he₁.symm.trans he
      simp only [hold]
      exact h.overwritten hold hl
    · have hnone : side.valueAt order.price = none := by
        rw [valueAt, OrderedMap.lookup_eq_none_iff.mpr hmem]; rfl
      rcases update_inserts hw order.amount hmem with ⟨side₁, he₁, hl⟩
      cases he₁.symm.trans he
      simp only [hnone]
      exact h.inserted hl

theorem mem_visibleLevels_iff {side : LimitedMap UInt64 UInt64 lt} (hw : side.Window)
    {p v : UInt64} : (p, v) ∈ side.visibleLevels ↔
      p ∈ side.mMap.keys.take side.mDepth ∧ side.valueAt p = some v := by
  rw [visibleLevels, visible_eq_take hw, OrderedMap.keys, ← List.map_take]
  have hsub := List.take_subset side.mDepth side.mMap.entries
  apply Iff.intro
  · intro h
    rcases List.mem_map.mp h with ⟨e, he, heq⟩
    cases heq
    have hlook := OrderedMap.lookup_eq_some_iff.mpr (hsub he)
    exact ⟨List.mem_map_of_mem he, by rw [valueAt, hlook]; rfl⟩
  · rintro ⟨hmem, hv⟩
    rcases List.mem_map.mp hmem with ⟨e, he, rfl⟩
    have hlook := OrderedMap.lookup_eq_some_iff.mpr (hsub he)
    rw [valueAt, hlook, Option.map_some, Option.some_inj] at hv
    exact List.mem_map.mpr ⟨e, he, by rw [hv]⟩

theorem Remembers.print {side side' : LimitedMap UInt64 UInt64 lt} {past : History}
    (h : side.Remembers past) (hw : side.Window) {ks : List UInt64}
    (hks : ∀ p, p ∈ ks ↔ p ∈ side.mMap.keys.take side.mDepth) (hp : Printed side side' ks) :
    side'.Remembers (past.print side) := by
  intro p payload hlook
  rw [hp.lookup] at hlook
  unfold History.print
  by_cases hmem : p ∈ side.mMap.keys.take side.mDepth
  · rw [if_pos ((hks p).mpr hmem), Option.map_eq_some_iff] at hlook
    rcases hlook with ⟨q, hq, rfl⟩
    simp only [hmem, if_true]
    refine ⟨rfl, ?_, ?_⟩
    · rwa [hp.keys, hp.depth]
    · rw [mem_visibleLevels_iff hw, valueAt, hq]
      exact ⟨hmem, rfl⟩
  · rw [if_neg fun hk ↦ hmem ((hks p).mp hk)] at hlook
    simp only [hmem, if_false]
    have hleft := h p payload hlook
    cases htouch : past.touched p with
    | fresh => rwa [htouch] at hleft
    | overwrote old => rwa [htouch] at hleft
    | printed =>
        -- a level that was printed and not touched since is still visible
        rw [htouch] at hleft
        exact absurd hleft.2.1 hmem

/-- A level's line shows the amount the side holds at its price. -/
theorem Holds.level_lineAt {side : LimitedMap UInt64 UInt64 lt} {depth : Nat}
    {f : UInt64 → UInt64} (hf : side.Holds depth f) (color : String) {p : UInt64}
    (hp : p ∈ side.mMap.keys) :
    (side.lineAt color p).level = (p, f p) ∧ side.valueAt p = some (f p) := by
  have hv := hf.valueAt_eq_some_iff.mpr ⟨rfl, hf.mem_keys_iff.mp hp⟩
  refine ⟨?_, hv⟩
  rw [valueAt, Option.map_eq_some_iff] at hv
  rcases hv with ⟨payload, hlook, hpay⟩
  rw [lineAt, hlook, PrintedLevel.level, Option.getD_some, hpay]

/-- The lines of a side are its visible levels. -/
theorem Holds.level_lines {side : LimitedMap UInt64 UInt64 lt} {depth : Nat}
    {f : UInt64 → UInt64} (hf : side.Holds depth f) (color : String) :
    ((side.mMap.keys.take side.mDepth).map (side.lineAt color)).map PrintedLevel.level =
      side.visibleLevels := by
  rw [hf.visibleLevels_eq_take, hf.levels_eq_map, ← List.map_take, ← hf.depth, List.map_map]
  apply List.map_congr_left
  intro p hp
  exact (hf.level_lineAt color (List.mem_of_mem_take hp)).1

/-- A line is in the right colour exactly if the last touch of its level tells the truth. -/
theorem Remembers.lines {side : LimitedMap UInt64 UInt64 lt} {past : History} {depth : Nat}
    {f : UInt64 → UInt64} (h : side.Remembers past) (hf : side.Holds depth f) (color : String) :
    ∀ line ∈ (side.mMap.keys.take side.mDepth).map (side.lineAt color),
      Highlighted past.shown color line ↔ past.Telling line.price line.amount := by
  intro line hmem
  rcases List.mem_map.mp hmem with ⟨p, hp, rfl⟩
  have hkey := List.mem_of_mem_take hp
  rcases hf.level_lineAt color hkey with ⟨hlevel, hv⟩
  have hprice : (side.lineAt color p).price = p := rfl
  have hamount : (side.lineAt color p).amount = f p := congrArg Prod.snd hlevel
  rw [hprice, hamount]
  exact h.highlighted_iff hv (hf.mem_keys_iff.mp hkey) color

end LimitedMap

/-! ## The book -/

namespace OrderBook

/-- Both sides remember their past. -/
structure Remembers (book : OrderBook) (past : Histories) : Prop where
  bids : book.mBid.Remembers past.bids
  asks : book.mAsk.Remembers past.asks

theorem remembers_new (depth : Nat) (past : Histories) : (new depth).Remembers past :=
  ⟨LimitedMap.remembers_new depth past.bids, LimitedMap.remembers_new depth past.asks⟩

theorem Remembers.add {book book' : OrderBook} {past : Histories} {depth : Nat} {l : Ledger}
    (h : book.Remembers past) (hr : book.Refines depth l) {order : Order}
    (he : book.add order = some book') : book'.Remembers (past.call book (.add order)) := by
  rw [OrderBook.add] at he
  rw [Histories.call]
  by_cases hold : order.timestamp < book.mLastTimestamp
  · rw [if_pos hold] at he ⊢
    cases he
    exact h
  · rw [if_neg hold] at he ⊢
    by_cases hbuy : order.type = Order.BUY
    · simp only [if_pos hbuy, Option.map_eq_some_iff] at he
      rcases he with ⟨mBid, hu, rfl⟩
      rw [if_pos hbuy]
      exact ⟨h.bids.update hr.bids.window hu, h.asks⟩
    · by_cases hsell : order.type = Order.SELL
      · simp only [if_neg hbuy, if_pos hsell, Option.map_eq_some_iff] at he
        rcases he with ⟨mAsk, hu, rfl⟩
        rw [if_neg hbuy, if_pos hsell]
        exact ⟨h.bids, h.asks.update hr.asks.window hu⟩
      · simp only [if_neg hbuy, if_neg hsell, Option.some_inj] at he
        cases he
        rw [if_neg hbuy, if_neg hsell]
        exact ⟨h.bids, h.asks⟩

theorem Remembers.print {book book' : OrderBook} {past : Histories} {depth : Nat} {l : Ledger}
    {out} (h : book.Remembers past) (hr : book.Refines depth l)
    (he : book.print = some (book', out)) : book'.Remembers (past.call book .print) := by
  have hask := print_visible hr.asks.window he
  rcases print_eq hr.bids.window hr.asks.window hask with ⟨mBid, mAsk, he', hb, ha⟩
  cases he'.symm.trans he
  exact ⟨h.bids.print hr.bids.window (fun _ ↦ Iff.rfl) hb,
    h.asks.print hr.asks.window (fun _ ↦ List.mem_reverse) ha⟩

/-- One call moves the book and its past together. -/
theorem Remembers.call {book book' : OrderBook} {past : Histories} {depth : Nat} {l : Ledger}
    (h : book.Remembers past) (hr : book.Refines depth l) {c : BookCall}
    (he : book.call c = some book') : book'.Remembers (past.call book c) := by
  cases c with
  | add order => exact h.add hr he
  | clear =>
      cases he
      exact ⟨LimitedMap.remembers_clear book.mBid _, LimitedMap.remembers_clear book.mAsk _⟩
  | print =>
      rw [OrderBook.call, Option.map_eq_some_iff] at he
      rcases he with ⟨⟨book₁, out⟩, hp, rfl⟩
      exact h.print hr hp

theorem Remembers.run {book : OrderBook} {past : Histories} {depth : Nat} {acc : List Order}
    (h : book.Remembers past) (hr : book.Refines depth (.ofAccepted acc))
    (hacc : Ledger.InOrder acc) {calls : List BookCall} (hprint : book.Printable calls) :
    ∃ book', book.run calls = some book' ∧
      book'.Refines depth (.ofAccepted (calls.foldl accept acc)) ∧
      book'.Remembers (past.run book calls) := by
  induction calls generalizing book past acc with
  | nil => exact ⟨book, rfl, hr, h⟩
  | cons c calls ih =>
      rcases hr.call hacc c hprint.1 with ⟨book₁, he, hr₁, hacc₁⟩
      rcases ih (h.call hr he) hr₁ hacc₁ (hprint.2 book₁ he) with ⟨book', hrun, hr', h'⟩
      refine ⟨book', by rw [OrderBook.run, he, Option.bind_some, hrun], hr', ?_⟩
      rw [Histories.run, he]
      exact h'

/-- Whenever `print` comes in a run, it writes the visible levels of both sides, and each line is
in colour exactly if the previous print did not show it, if and only if the last touch of its level
tells so. -/
theorem print_highlights_iff (depth : Nat) (calls : List BookCall)
    (hprint : (new depth).Printable calls) :
    ∃ book, (new depth).run calls = some book ∧
      (book.mAsk.visible ≠ [] → ∃ book' asks bids, book.print = some (book', asks, bids) ∧
        asks.map PrintedLevel.level = book.mAsk.visibleLevels.reverse ∧
        bids.map PrintedLevel.level = book.mBid.visibleLevels ∧
        let past := Histories.start.run (new depth) calls
        (∀ line ∈ asks, Highlighted past.asks.shown askHighlight line ↔
          past.asks.Telling line.price line.amount) ∧
        ∀ line ∈ bids, Highlighted past.bids.shown bidHighlight line ↔
          past.bids.Telling line.price line.amount) := by
  have hstart : (new depth).Refines depth (.ofAccepted []) := refines_new depth
  rcases (remembers_new depth .start).run hstart (fun a ha ↦ absurd ha List.not_mem_nil) hprint
    with ⟨book, he, hr, h⟩
  refine ⟨book, he, fun hask ↦ ?_⟩
  rcases print_eq hr.bids.window hr.asks.window hask with ⟨mBid, mAsk, hp, -, -⟩
  have hbids := h.bids.lines hr.bids bidHighlight
  refine ⟨_, _, _, hp, ?_, hr.bids.level_lines bidHighlight, ?_, hbids⟩
  · rw [List.map_reverse, List.map_reverse, hr.asks.level_lines]
  · intro line hline
    rw [List.map_reverse, List.mem_reverse] at hline
    exact h.asks.lines hr.asks askHighlight line hline

/-- A new amount after a print. -/
theorem print_highlights_iff_example :
    let calls : List BookCall := [.add ⟨Order.SELL, 1, 7, 2⟩, .print, .add ⟨Order.SELL, 1, 7, 5⟩]
    (new 1).Printable calls ∧ ∃ book, (new 1).run calls = some book ∧
      ∃ book' asks bids, book.print = some (book', asks, bids) ∧
        let past := Histories.start.run (new 1) calls
        ∀ line ∈ asks, Highlighted past.asks.shown askHighlight line ↔
          past.asks.Telling line.price line.amount := by
  intro calls
  have hp : (new 1).Printable calls := by
    simp only [calls, Printable]
    refine ⟨by simp, fun b₁ h₁ ↦ ⟨fun _ ↦ ?_, fun b₂ _ ↦ ⟨by simp, fun _ _ ↦ trivial⟩⟩⟩
    cases h₁
    decide
  rcases print_highlights_iff 1 calls hp with ⟨book, he, h⟩
  have hask : book.mAsk.visible ≠ [] := by
    cases he
    decide
  rcases h hask with ⟨book', asks, bids, hprint, -, -, hline, -⟩
  exact ⟨hp, book, he, book', asks, bids, hprint, hline⟩

/-- Written twice since the last print, the second time with the amount it already has, a level is
not in colour although the last print showed another amount. -/
theorem rewritten_level_not_highlighted :
    let calls : List BookCall := [.add ⟨Order.SELL, 1, 7, 2⟩, .print,
      .add ⟨Order.SELL, 1, 7, 5⟩, .add ⟨Order.SELL, 1, 7, 5⟩]
    (((new 1).run calls).bind OrderBook.print).map Prod.snd = some ([⟨none, 7, 5⟩], []) ∧
      (Histories.start.run (new 1) calls).asks.shown = [(7, 2)] ∧
      ¬ Highlighted [(7, 2)] askHighlight ⟨none, 7, 5⟩ := by
  refine ⟨rfl, rfl, ?_⟩
  decide

end OrderBook

end Tob
