import Tob.Book.Chronology
import Tob.Live.Main

/-!
# Snapshot and replay

A snapshot of the exchange's book, loaded and followed by a replay of the diffs from any point at or
before its cut, gives the exchange's book.
-/

open LastWrite

namespace Tob

theorem writes_levelOrders (type timestamp : UInt64) (levels : List (UInt64 × UInt64)) :
    writes type (levelOrders type timestamp levels) = levels := by
  rw [writes, levelOrders, List.filter_eq_self.mpr, List.map_map]
  · exact List.map_id' levels
  · intro o ho
    rcases List.mem_map.mp ho with ⟨l, -, rfl⟩
    simp

theorem writes_levelOrders_of_ne {type type' : UInt64} (h : type' ≠ type) (timestamp : UInt64)
    (levels : List (UInt64 × UInt64)) : writes type (levelOrders type' timestamp levels) = [] := by
  rw [writes, List.filter_eq_nil_iff.mpr, List.map_nil]
  intro o ho
  rcases List.mem_map.mp ho with ⟨l, -, rfl⟩
  simpa using h

/-- What a document writes to each side. -/
theorem writes_document (timestamp : UInt64) (bids asks : List (UInt64 × UInt64)) :
    writes Order.BUY (levelOrders Order.BUY timestamp bids ++
        levelOrders Order.SELL timestamp asks) = bids ∧
      writes Order.SELL (levelOrders Order.BUY timestamp bids ++
        levelOrders Order.SELL timestamp asks) = asks := by
  have hbuy : Order.SELL ≠ Order.BUY := by decide
  constructor
  · rw [writes_append, writes_levelOrders, writes_levelOrders_of_ne hbuy, List.append_nil]
  · rw [writes_append, writes_levelOrders, writes_levelOrders_of_ne hbuy.symm, List.nil_append]

/-- Writing the levels of a side into an empty one gives back its amounts, in whatever order. -/
theorem applyWrites_levels {lt : UInt64 → UInt64 → Prop} [IsStrictTotalOrder UInt64 lt]
    {side : LimitedMap UInt64 UInt64 lt} {depth : Nat} {f : UInt64 → UInt64}
    (h : side.Holds depth f) {levels : List (UInt64 × UInt64)} (hp : levels.Perm side.levels) :
    applyWrites (fun _ ↦ 0) levels = f := by
  have hkeys := h.map_fst_levels
  have hn : (side.levels.map Prod.fst).Nodup := hkeys ▸ side.mMap.nodup_keys
  funext p
  rw [applyWrites_apply, lastWrite_perm hp ((hp.map _).nodup_iff.mpr hn)]
  by_cases hz : f p = 0
  · have hnone : lastWrite side.levels p = none := by
      rw [lastWrite_eq_none_iff, hkeys, h.mem_keys_iff, not_not]
      exact hz
    rw [hnone, hz]; rfl
  · have hmem : (p, f p) ∈ side.levels := h.mem_levels_iff.mpr ⟨rfl, hz⟩
    rw [lastWrite_eq_some_of_mem hn hmem]; rfl

/-- The levels of a book, loaded into an empty one, bring its amounts with them. -/
theorem Ledger.addAll_levels {book : OrderBook} {depth : Nat} {l : Ledger}
    (h : book.Refines depth l) {bids asks : List (UInt64 × UInt64)}
    (hbids : bids.Perm book.mBid.levels) (hasks : asks.Perm book.mAsk.levels) (t : UInt64) :
    (Ledger.empty.addAll (levelOrders Order.BUY t bids ++ levelOrders Order.SELL t asks)).bids =
        l.bids ∧
      (Ledger.empty.addAll (levelOrders Order.BUY t bids ++ levelOrders Order.SELL t asks)).asks =
        l.asks := by
  have hsame : Chronological (levelOrders Order.BUY t bids ++ levelOrders Order.SELL t asks) :=
    chronological_of_timestamp fun _ ↦ levelOrders_timestamp
  rcases Ledger.addAll_empty_writes hsame with ⟨hb, ha⟩
  rw [(writes_document t bids asks).1] at hb
  rw [(writes_document t bids asks).2] at ha
  exact ⟨hb.trans (applyWrites_levels h.bids hbids), ha.trans (applyWrites_levels h.asks hasks)⟩

/-- One side of the argument: the missed diffs are in the snapshot, the overlapping ones are written
once more, the new ones are written as on the exchange. -/
theorem applyWrites_replayed (type : UInt64) {d : List Order} (hd : Chronological d) {j k : Nat}
    (hk : k ≤ j) {t : UInt64} (ht : ∀ o ∈ d.drop j, t ≤ o.timestamp) :
    applyWrites (applyWrites (fun _ ↦ 0) (writes type (d.take j)))
        (writes type (since t (d.drop k))) =
      applyWrites (fun _ ↦ 0) (writes type d) := by
  have hsplit : d.drop k = (d.take j).drop k ++ d.drop j := by
    have hj : d.drop j = (d.drop k).drop (j - k) := by
      rw [List.drop_drop, Nat.add_sub_cancel' hk]
    rw [hj, List.drop_take, List.take_append_drop]
  have hsince : since t (d.drop k) = since t ((d.take j).drop k) ++ d.drop j := by
    rw [hsplit, since, List.filter_append]
    exact congrArg _ (since_eq_self ht)
  -- what survives of the overlap is the end of the first `j` diffs
  have hsuffix : since t ((d.take j).drop k) <:+ d.take j :=
    (since_suffix ((hd.take j).drop k) t).trans (List.drop_suffix k _)
  rcases hsuffix with ⟨older, holder⟩
  rw [hsince, writes_append, applyWrites_append]
  have hreplay : applyWrites (applyWrites (fun _ ↦ 0) (writes type (d.take j)))
      (writes type (since t ((d.take j).drop k))) =
      applyWrites (fun _ ↦ (0 : UInt64)) (writes type (d.take j)) := by
    generalize since t ((d.take j).drop k) = recent at holder
    rw [← holder, writes_append, applyWrites_replay]
  rw [hreplay, ← applyWrites_append, ← writes_append, List.take_append_drop]

/-- Snapshot plus replay converges: the document that lists the book after the first `j` diffs,
loaded into an empty book with timestamp `t` and followed by the diffs from `k ≤ j` on, gives the
levels and the windows of the book after all diffs. -/
theorem snapshot_replay_converges (conv : Conversions) (n depth : Nat) {d : List Order} {j k : Nat}
    {t : UInt64} {root : Json} {bids asks : List (UInt64 × UInt64)} {exchange : OrderBook}
    (hd : Chronological d) (hk : k ≤ j)
    (hafter : ∀ o ∈ d.drop j, t ≤ o.timestamp)
    (hexchange : (OrderBook.new depth).addAll (d.take j) = some exchange)
    (hbids : bids.Perm exchange.mBid.levels) (hasks : asks.Perm exchange.mAsk.levels)
    (hroot : IsSnapshot conv root t bids asks) :
    ∃ loaded live full, storeSnapshot conv root (OrderBook.new depth) = .returned loaded ∧
      Orders.drain (n := n) loaded (d.drop k) = some (live, .empty) ∧
      (OrderBook.new depth).addAll d = some full ∧
      live.mBid.levels = full.mBid.levels ∧ live.mAsk.levels = full.mAsk.levels ∧
      live.mBid.visibleLevels = full.mBid.visibleLevels ∧
      live.mAsk.visibleLevels = full.mAsk.visibleLevels := by
  have hnew := OrderBook.refines_new depth
  rcases hnew.addAll (d.take j) with ⟨exchange', hex, hexl⟩
  cases hexchange.symm.trans hex
  rcases hnew.addAll d with ⟨full, hfull, hfulll⟩
  rcases hnew.addAll (levelOrders Order.BUY t bids ++ levelOrders Order.SELL t asks) with
    ⟨loaded, hloaded, hloadedl⟩
  have hstore := hroot.storeSnapshot_eq (OrderBook.new depth)
  rw [addThen, hloaded] at hstore
  rcases hloadedl.addAll (d.drop k) with ⟨live, hlive, hlivel⟩
  refine ⟨loaded, live, full, hstore, by rw [Orders.drain_eq, hlive]; rfl, hfull, ?_⟩
  -- the loaded ledger holds the amounts of the exchange's ledger, and is not newer than `t`
  rcases Ledger.addAll_empty_writes (hd.take j) with ⟨hexb, hexa⟩
  rcases Ledger.addAll_empty_writes hd with ⟨hfub, hfua⟩
  rcases Ledger.addAll_writes (hd.drop k)
    (Ledger.empty.addAll (levelOrders Order.BUY t bids ++ levelOrders Order.SELL t asks)) with
    ⟨hlib, hlia⟩
  rcases Ledger.addAll_levels hexl hbids hasks t with ⟨hlob, hloa⟩
  have hlast : ∀ o ∈ d.drop j,
      (Ledger.empty.addAll (levelOrders Order.BUY t bids ++ levelOrders Order.SELL t asks)).last ≤
        o.timestamp := by
    intro o ho
    refine le_trans (Ledger.addAll_last_le (t := t) ?_ (zero_le_timestamp t)) (hafter o ho)
    intro a ha
    exact le_of_eq (levelOrders_timestamp ha)
  have hb : live.mBid.Holds depth (Ledger.empty.addAll d).bids := by
    have h := hlivel.bids
    rw [hlib, hlob, hexb, applyWrites_replayed Order.BUY hd hk hlast] at h
    rw [hfub]
    exact h
  have ha : live.mAsk.Holds depth (Ledger.empty.addAll d).asks := by
    have h := hlivel.asks
    rw [hlia, hloa, hexa, applyWrites_replayed Order.SELL hd hk hlast] at h
    rw [hfua]
    exact h
  have hlb := hb.levels_eq hfulll.bids
  have hla := ha.levels_eq hfulll.asks
  refine ⟨hlb, hla, ?_, ?_⟩
  · rw [hb.visibleLevels_eq_take, hfulll.bids.visibleLevels_eq_take, hlb]
  · rw [ha.visibleLevels_eq_take, hfulll.asks.visibleLevels_eq_take, hla]

-- The second diff is replayed and the third one shares the snapshot's timestamp.
theorem snapshot_replay_converges_example :
    let root : Json := .object [("asks", .array [.array [.string "7", .string "2"]]),
      ("bids", .array [.array [.string "3", .string "1"]]), ("timestamp", .string "5")]
    let d : List Order := [⟨Order.BUY, 5, 3000000, 1000000⟩, ⟨Order.SELL, 5, 7000000, 2000000⟩,
      ⟨Order.BUY, 5, 3000000, 4000000⟩]
    ∃ loaded live full, storeSnapshot (.whole [] root) root (OrderBook.new 3) = .returned loaded ∧
      Orders.drain (n := 1000) loaded (d.drop 1) = some (live, .empty) ∧
      (OrderBook.new 3).addAll d = some full ∧
      live.mBid.levels = full.mBid.levels ∧ live.mAsk.levels = full.mAsk.levels := by
  intro root d
  have hroot : IsSnapshot (.whole [] root) root 5 [(3000000, 1000000)] [(7000000, 2000000)] :=
    ⟨rfl, ⟨_, rfl, rfl⟩, ⟨_, rfl, rfl⟩⟩
  have h := snapshot_replay_converges (.whole [] root) 1000 3 (d := d) (j := 2) (k := 1)
    (by unfold Chronological; decide) (by decide) (by decide) rfl (List.Perm.refl _)
    (List.Perm.refl _) hroot
  rcases h with ⟨loaded, live, full, hl, hd, hf, hb, ha, -⟩
  exact ⟨loaded, live, full, hl, hd, hf, hb, ha⟩

end Tob
