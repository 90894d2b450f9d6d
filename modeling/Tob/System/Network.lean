import Tob.Library.Reach
import Tob.Live.Gap
import Tob.System.Documents
import Tob.System.Program

/-!
# From the sockets to the book

The program in front of a server for each connection: whatever the order of the callbacks and the
way the bytes are cut into reads, the book is one document with the diffs behind it, each of them
once and in the order of the stream.
-/

namespace Tob

/-- A response of the snapshot server. -/
structure Response where
  head : List UInt8
  body : List UInt8

def Response.bytes (r : Response) : List UInt8 := r.head ++ HTTP_DELIMITER ++ r.body

/-- What the diff connection has delivered and accepted, and what the snapshot connection still has
to deliver. -/
structure Network where
  received : List UInt8
  sent : List UInt8
  response : Response
  incoming : List UInt8

namespace System

section Environment

variable {n : Nat}

/-- The bytes that the diff connection accepts for a write. -/
def accepts (urls : Urls) (s : System n) (limits : List Nat) : List UInt8 :=
  if s.diffOpen then
    ((s.diff.onWrite urls.diff limits).map fun (_, accepted) ↦ accepted.flatten).getD []
  else []

/-- What the sockets do for a callback: the diff connection delivers the next bytes of its stream,
the snapshot connection those of its response, and both accept what they like. -/
inductive Delivers (conv : Conversions) (urls : Urls) (f : DiffStream) (s : System n)
    (net : Network) : Callback → Network → Prop where
  | diffRead {chunks} : s.diffOpen = true →
      DiffLogic.AllInTime conv f net.received s.diff chunks →
      Delivers conv urls f s net (.diffRead chunks)
        { net with received := net.received ++ chunks.flatten }
  | diffWrite {limits} : Delivers conv urls f s net (.diffWrite limits)
      { net with sent := net.sent ++ s.accepts urls limits }
  | diffClose : Delivers conv urls f s net .diffClose net
  | snapshotRead {result limits} : s.orderBookSocket = .connected →
      Delivers conv urls f s net (.snapshotRead result limits net.incoming)
        { net with
          incoming := s.client.leaves (strstr HTTP_DELIMITER) result limits net.incoming }
  | snapshotWrite {result writes} :
      Delivers conv urls f s net (.snapshotWrite result writes) net
  | snapshotClose : Delivers conv urls f s net .snapshotClose net

/-- A new connection gets a new response. -/
inductive Connects (served : Response → Prop) (s : System n) (net : Network) (s' : System n) :
    Network → Prop where
  | reconnected {r} : s.orderBookSocket = .null → s'.orderBookSocket = .connected → served r →
      Connects served s net s' { net with response := r, incoming := r.bytes }
  | same : ¬ (s.orderBookSocket = .null ∧ s'.orderBookSocket = .connected) →
      Connects served s net s' net

/-- One callback or loop body against these servers. -/
inductive Step (conv : Conversions) (urls : Urls) (f : DiffStream) (served : Response → Prop) :
    System n × Network → System n × Network → Prop where
  | callback {s net callback s' net'} : Delivers conv urls f s net callback net' →
      s.handle conv urls callback = .returned s' →
      Step conv urls f served (s, net) (s', net')
  | afterEvents {s net clock s' net'} : s.afterEvents urls clock = .returned s' →
      Connects served s net s' net' → Step conv urls f served (s, net) (s', net')

/-- The runs of the program against them. -/
inductive Run (conv : Conversions) (urls : Urls) (f : DiffStream) (served : Response → Prop)
    (depth address : Nat) (stale : List UInt8) : System n → Network → Prop where
  | start {r} : served r →
      Run conv urls f served depth address stale (start urls depth address stale)
        ⟨[], [], r, r.bytes⟩
  | step {s net s' net'} : Run conv urls f served depth address stale s net →
      Step conv urls f served (s, net) (s', net') →
      Run conv urls f served depth address stale s' net'

end Environment

variable {n : Nat} {conv : Conversions} {urls : Urls} {f : DiffStream} {served : Response → Prop}
  {depth address : Nat} {stale : List UInt8}

theorem Run.toMain {s : System n} {net : Network}
    (h : Run conv urls f served depth address stale s net) :
    Main.Reachable conv depth s.toMain := by
  induction h with
  | start => exact Main.Run.start
  | step _ hstep ih =>
      cases hstep with
      | callback _ hs =>
          rcases handle_refines hs with ⟨events, hevents⟩
          exact ih.handleAll hevents
      | afterEvents hs => exact Main.Run.afterEvents ih (afterEvents_toMain hs)

/-- Where the orders of the book and the queue come from, and what goes out on the diff connection:
the document loaded since the book was empty last, which is the one of the response that came last,
the diffs the loop has drained, and the frames the client has generated. -/
structure Fed (conv : Conversions) (urls : Urls) (f : DiffStream) (served : Response → Prop)
    (depth : Nat) (stale : List UInt8) (s : System n) (net : Network)
    (loaded drained : List Order) (generated : List OutputFrame) : Prop where
  part : drained ++ s.diff.mOrders.mOrders <+: f.ws.flatMap (DiffLogic.listed conv)
  answers : generated <+: f.answers f.ws.length
  stage : s.diffOpen = true →
    DiffLogic.Stage conv f stale net.received (drained ++ s.diff.mOrders.mOrders) generated s.diff
  sent : DiffLogic.Sent urls.diff s.diff net.sent generated
  book : s.orderBook.Refines depth (Ledger.empty.addAll (loaded ++ drained))
  document : loaded = [] ∨ served net.response ∧ ∃ root,
    conv.parse net.response.body = .ok (some root) ∧ loaded = (snapshotOrders conv root).1
  waiting : s.orderBookReady = false → drained = []
  unloaded : s.orderBookSocket ≠ .closed → loaded = []
  serving : s.orderBookSocket = .connected → served net.response ∧
    Client.Serving (snapshotRequest urls.orderBook) net.response.head net.response.body s.client
      net.incoming
  live : s.orderBookReady = true → loaded ≠ [] ∧
    ¬ (Ledger.empty.addAll loaded).last < Orders.getFirstTimestamp (⟨drained⟩ : Orders n)

variable {s s' : System n} {net net' : Network} {loaded drained : List Order}
  {generated : List OutputFrame}

theorem start_fed (haddress : address < 2 ^ 56) (hstale : stale.length = BUFFER_SIZE)
    {r : Response} (hr : served r) :
    Fed conv urls f served depth stale (start (n := n) urls depth address stale)
      ⟨[], [], r, r.bytes⟩ [] [] [] where
  part := List.nil_prefix
  answers := List.nil_prefix
  stage _ := .handshake ⟨hstale, Nat.zero_le _, haddress⟩ rfl rfl rfl
  sent := ⟨⟨[], [], List.nil_prefix, rfl, rfl⟩, fun o ho ↦ absurd ho List.not_mem_nil, fun _ ↦ rfl⟩
  book := OrderBook.refines_new depth
  document := .inl rfl
  waiting _ := rfl
  unloaded _ := rfl
  serving _ := ⟨hr, Client.new_serving urls.orderBook r.head r.body⟩
  live h := by cases h

/-! ## Callbacks of the diff connection -/

theorem accepts_eq {s : System n} (hopen : s.diffOpen = true) {limits : List Nat}
    {diff : DiffLogic n} {accepted : List (List UInt8)}
    (hwrite : s.diff.onWrite urls.diff limits = some (diff, accepted)) :
    s.accepts urls limits = accepted.flatten := by
  rw [accepts, if_pos hopen, hwrite]
  rfl

theorem Fed.diffRead (h : Fed conv urls f served depth stale s net loaded drained generated)
    (hresponse : Head f.response) {chunks : List (List UInt8)} (hopen : s.diffOpen = true)
    (htime : DiffLogic.AllInTime conv f net.received s.diff chunks)
    (hs : s.afterDiff (s.diff.onRead conv chunks) = .returned s') :
    ∃ generated', Fed conv urls f served depth stale s'
      { net with received := net.received ++ chunks.flatten } loaded drained generated' := by
  have hfeeds := (h.stage hopen).onRead hresponse htime
  have hsent {diff : DiffLogic n} (hstate : (s.diff.onRead conv chunks).state? = some diff)
      {more : List OutputFrame} (houtput : diff.mOutputQueue = s.diff.mOutputQueue ++ more)
      (hanswers : generated ++ more <+: f.answers f.ws.length) :
      DiffLogic.Sent urls.diff diff net.sent (generated ++ more) := by
    refine h.sent.generate houtput (fun o ho ↦ ?_) (DiffLogic.onRead_early hstate)
    exact DiffLogic.whole_of_mem_answers (hanswers.subset (List.mem_append_right _ ho))
  cases hread : s.diff.onRead conv chunks with
  | returned diff =>
      rw [hread] at hs hfeeds hsent
      cases hs
      rcases hfeeds diff rfl with ⟨batch, more, hqueue, houtput, hpart, hanswers, hstage⟩
      have hstage := hstage rfl
      rw [List.append_assoc, ← hqueue] at hpart hstage
      exact ⟨generated ++ more, hpart, hanswers, fun _ ↦ hstage, hsent rfl houtput hanswers, h.book,
        h.document, h.waiting, h.unloaded, h.serving, h.live⟩
  | threw what diff =>
      rw [hread] at hs hfeeds hsent
      cases hs
      rcases hfeeds diff rfl with ⟨batch, more, hqueue, houtput, hpart, hanswers, -⟩
      rw [List.append_assoc, ← hqueue] at hpart
      exact ⟨generated ++ more, hpart, hanswers, fun hclosed ↦ (by cases hclosed),
        hsent rfl houtput hanswers, h.book, h.document, h.waiting, h.unloaded, h.serving, h.live⟩
  | aborted diff => rw [hread] at hs; cases hs
  | undefined => rw [hread] at hs; cases hs

theorem Fed.diffWrite (h : Fed conv urls f served depth stale s net loaded drained generated)
    (hopen : s.diffOpen = true) {limits : List Nat} {diff : DiffLogic n}
    {accepted : List (List UInt8)}
    (hwrite : s.diff.onWrite urls.diff limits = some (diff, accepted)) :
    Fed conv urls f served depth stale { s with diff }
      { net with sent := net.sent ++ s.accepts urls limits } loaded drained generated := by
  have horders := DiffLogic.onWrite_orders hwrite
  have haccepts := accepts_eq hopen hwrite
  refine ⟨?_, h.answers, fun _ ↦ ?_, ?_, h.book, h.document, h.waiting, h.unloaded, h.serving,
    h.live⟩
  · show drained ++ diff.mOrders.mOrders <+: _
    rw [horders]
    exact h.part
  · show DiffLogic.Stage conv f stale net.received (drained ++ diff.mOrders.mOrders) generated diff
    rw [horders]
    exact (h.stage hopen).onWrite hwrite
  · rcases h.sent.onWrite limits with ⟨diff', accepted', hwrite', hsent⟩
    cases hwrite.symm.trans hwrite'
    rw [haccepts]
    exact hsent

/-! ## Callbacks of the snapshot connection -/

/-- While the connection is there nothing has been loaded or drained. -/
theorem Fed.unused (h : Fed conv urls f served depth stale s net loaded drained generated)
    (hsound : s.toMain.Sound depth) (hconnected : s.orderBookSocket = .connected) :
    loaded = [] ∧ drained = [] := by
  have hopen : s.toMain.orderBookSocket ≠ .closed := by
    show s.orderBookSocket ≠ .closed
    rw [hconnected]
    decide
  exact ⟨h.unloaded hopen, h.waiting (hsound.waiting hopen).1⟩

/-- The connection is closed, and the book is what it was. -/
theorem Fed.closed (h : Fed conv urls f served depth stale s net loaded drained generated)
    (client : Client) (incoming : List UInt8) :
    Fed conv urls f served depth stale { s with client, orderBookSocket := .closed }
      { net with incoming } loaded drained generated :=
  ⟨h.part, h.answers, h.stage, h.sent, h.book, h.document, h.waiting, fun hne ↦ absurd rfl hne,
    fun hconnected ↦ (by cases hconnected), h.live⟩

/-- The body of a response goes into the empty book, as far as it can be read. -/
theorem Fed.store (h : Fed conv urls f served depth stale s net loaded drained generated)
    (hsound : s.toMain.Sound depth) (hconnected : s.orderBookSocket = .connected)
    (client : Client) (incoming : List UInt8)
    (hs : System.store conv { s with client } net.response.body = .returned s') :
    ∃ loaded', Fed conv urls f served depth stale s' { net with incoming } loaded' drained
      generated := by
  have hr : served net.response := (h.serving hconnected).1
  rcases h.unused hsound hconnected with ⟨rfl, rfl⟩
  have hready : s.orderBookReady = false := by
    refine (hsound.waiting ?_).1
    show s.orderBookSocket ≠ .closed
    rw [hconnected]
    decide
  have hleft (orderBook : OrderBook)
      (hp : processJson conv net.response.body s.orderBook = .returned orderBook ∨
        ∃ what, processJson conv net.response.body s.orderBook = .threw what orderBook) :
      ∃ loaded', Fed conv urls f served depth stale
        { s with orderBook, client, orderBookSocket := .closed } { net with incoming } loaded'
        [] generated := by
    rcases processJson_leaves hp with ⟨-, rfl⟩ | ⟨root, hparse, hadd⟩
    · exact ⟨[], h.closed client incoming⟩
    · rcases h.book.addAll (snapshotOrders conv root).1 with ⟨added, he, hadded⟩
      cases he.symm.trans hadd
      refine ⟨(snapshotOrders conv root).1, h.part, h.answers, h.stage, h.sent, ?_,
        .inr ⟨hr, root, hparse, rfl⟩, h.waiting, fun hne ↦ absurd rfl hne, nofun, ?_⟩
      · rw [List.append_nil]
        exact hadded
      · intro hlive
        cases hready.symm.trans hlive
  unfold System.store at hs
  simp only at hs
  cases hjson : processJson conv net.response.body s.orderBook with
  | returned orderBook => rw [hjson] at hs; cases hs; exact hleft orderBook (.inl hjson)
  | threw what orderBook => rw [hjson] at hs; cases hs; exact hleft orderBook (.inr ⟨what, hjson⟩)
  | aborted orderBook => rw [hjson] at hs; cases hs
  | undefined => rw [hjson] at hs; cases hs

theorem Fed.snapshotRead (h : Fed conv urls f served depth stale s net loaded drained generated)
    (hfits : ∀ r, served r → Receiver.Fits r.head r.body) (hsound : s.toMain.Sound depth)
    (hconnected : s.orderBookSocket = .connected) {result : SslResult} {limits : List Nat}
    (hs : s.afterClient conv
        (s.client.delivers (strstr HTTP_DELIMITER) result limits net.incoming)
        (s.client.onRead (strstr HTTP_DELIMITER) result limits net.incoming) = .returned s') :
    ∃ loaded', Fed conv urls f served depth stale s'
      { net with incoming := s.client.leaves (strstr HTTP_DELIMITER) result limits net.incoming }
      loaded' drained generated := by
  rcases h.serving hconnected with ⟨hr, hserving⟩
  have hensures := hserving.onRead (hfits _ hr) result limits
  cases hread : s.client.onRead (strstr HTTP_DELIMITER) result limits net.incoming with
  | returned client =>
      rw [hread] at hs
      rcases hensures.2 client hread with ⟨hserving', hdelivers⟩
      rw [hdelivers] at hs
      by_cases hnil : s.client.leaves (strstr HTTP_DELIMITER) result limits net.incoming = []
      · -- the body has come in with this call
        rw [if_pos hnil] at hs
        exact h.store hsound hconnected client _ hs
      · rw [if_neg hnil] at hs
        cases hs
        exact ⟨loaded, h.part, h.answers, h.stage, h.sent, h.book, h.document, h.waiting,
          h.unloaded, fun _ ↦ ⟨hr, hserving' hnil⟩, h.live⟩
  | threw what client =>
      rw [hread] at hs
      cases hs
      exact ⟨loaded, h.closed client _⟩
  | aborted client => rw [hread] at hs; cases hs
  | undefined => rw [hread] at hs; cases hs

theorem Fed.snapshotWrite (h : Fed conv urls f served depth stale s net loaded drained generated)
    (hconnected : s.orderBookSocket = .connected) {result : SslResult} {writes : List Int}
    (hs : s.afterClient conv none (s.client.onWrite result writes) = .returned s') :
    Fed conv urls f served depth stale s' net loaded drained generated := by
  rcases h.serving hconnected with ⟨hr, hserving⟩
  cases hwrite : s.client.onWrite result writes with
  | returned client =>
      rw [hwrite] at hs
      cases hs
      have hserving' := (hserving.onWrite result writes).2 client hwrite
      exact ⟨h.part, h.answers, h.stage, h.sent, h.book, h.document, h.waiting, h.unloaded,
        fun _ ↦ ⟨hr, hserving'⟩, h.live⟩
  | threw what client =>
      rw [hwrite] at hs
      cases hs
      exact h.closed client net.incoming
  | aborted client => rw [hwrite] at hs; cases hs
  | undefined => rw [hwrite] at hs; cases hs

/-- A callback may load a document, it does not drain. -/
theorem Fed.handled (h : Fed conv urls f served depth stale s net loaded drained generated)
    (hresponse : Head f.response) (hfits : ∀ r, served r → Receiver.Fits r.head r.body)
    (hsound : s.toMain.Sound depth) {callback : Callback}
    (hd : Delivers conv urls f s net callback net')
    (hs : s.handle conv urls callback = .returned s') :
    ∃ loaded' generated',
      Fed conv urls f served depth stale s' net' loaded' drained generated' := by
  cases hd with
  | diffRead hopen htime =>
      rw [handle, if_pos hopen] at hs
      exact ⟨loaded, h.diffRead hresponse hopen htime hs⟩
  | diffWrite =>
      rw [handle] at hs
      cases hopen : s.diffOpen with
      | false =>
          have hnone (limits : List Nat) : s.accepts urls limits = [] :=
            if_neg (by rw [hopen]; decide)
          rw [hopen, if_neg Bool.false_ne_true] at hs
          cases hs
          refine ⟨loaded, generated, ?_⟩
          rw [hnone, List.append_nil]
          exact h
      | true =>
          rw [hopen, if_pos rfl] at hs
          rcases Outcome.attempt_eq_returned_iff.mp hs with ⟨⟨diff, accepted⟩, hwrite, hs⟩
          cases hs
          exact ⟨loaded, generated, hopen ▸ h.diffWrite hopen hwrite⟩
  | diffClose =>
      cases hs
      exact ⟨loaded, generated, h.part, h.answers, fun hopen ↦ (by cases hopen), h.sent, h.book,
        h.document, h.waiting, h.unloaded, h.serving, h.live⟩
  | snapshotRead hconnected =>
      rw [handle, if_pos hconnected] at hs
      rcases h.snapshotRead hfits hsound hconnected hs with ⟨loaded', h'⟩
      exact ⟨loaded', generated, h'⟩
  | snapshotWrite =>
      rw [handle] at hs
      by_cases hconnected : s.orderBookSocket = .connected
      · rw [if_pos hconnected] at hs
        exact ⟨loaded, generated, h.snapshotWrite hconnected hs⟩
      · rw [if_neg hconnected] at hs
        cases hs
        exact ⟨loaded, generated, h⟩
  | snapshotClose =>
      cases hs
      by_cases hconnected : s.orderBookSocket = .connected
      · rw [if_pos hconnected]
        exact ⟨loaded, generated, h.closed s.client net.incoming⟩
      · rw [if_neg hconnected]
        exact ⟨loaded, generated, h⟩

/-! ## The rest of the loop body -/

theorem getFirstTimestamp_append (xs ys : List Order) {t : UInt64}
    (h : ¬ t < Orders.getFirstTimestamp (⟨xs⟩ : Orders n)) :
    ¬ t < Orders.getFirstTimestamp (⟨xs ++ ys⟩ : Orders n) := by
  cases xs with
  | nil =>
      have hmax : t = -1 := le_antisymm (le_maxTimestamp t) (not_lt.mp h)
      rw [hmax]
      exact not_lt.mpr (le_maxTimestamp _)
  | cons o xs => exact h

/-- A book that passes the checks has been loaded, and no diff is missing between the document and
the first of those behind it. -/
theorem Fed.passes (h : Fed conv urls f served depth stale s net loaded drained generated)
    (hbook : s.orderBook.toBool = true)
    (hgap : s.orderBookReady = false →
      ¬ s.orderBook.getLastTimestamp < s.diff.mOrders.getFirstTimestamp) :
    loaded ≠ [] ∧ ¬ (Ledger.empty.addAll loaded).last <
      Orders.getFirstTimestamp (⟨drained ++ s.diff.mOrders.mOrders⟩ : Orders n) := by
  cases hready : s.orderBookReady with
  | true => exact ⟨(h.live hready).1, getFirstTimestamp_append _ _ (h.live hready).2⟩
  | false =>
      -- it becomes live now: the book is the document, and all diffs are queued
      have hgap := hgap hready
      have hdrained := h.waiting hready
      subst hdrained
      have hl := h.book
      rw [List.append_nil] at hl
      refine ⟨?_, by rw [← hl.last]; exact hgap⟩
      rintro rfl
      cases (Main.refines_empty_toBool hl).symm.trans hbook

theorem Fed.settled (h : Fed conv urls f served depth stale s net loaded drained generated)
    (hsound : s.toMain.Sound depth) {clock : Clock}
    (hs : s.afterEvents urls clock = .returned s') (hconnects : Connects served s net s' net') :
    ∃ loaded' drained', Fed conv urls f served depth stale s' net' loaded' drained' generated := by
  rcases Outcome.map_eq_returned_iff.mp hs with ⟨m, hm, rfl⟩
  -- without a new connection the network stays as it is
  have hsame (hno : ¬ (s.orderBookSocket = .null ∧ m.orderBookSocket = .connected)) :
      net' = net ∧ (s.withMain urls m).client = s.client := by
    refine ⟨?_, if_neg hno⟩
    cases hconnects with
    | reconnected hnull hconnected => exact absurd ⟨hnull, hconnected⟩ hno
    | same => rfl
  cases Main.settled_of_returned hm with
  | idle =>
      have hno : ¬ (s.orderBookSocket = .null ∧ s.orderBookSocket = .connected) := by
        rintro ⟨hnull, hconnected⟩
        cases hnull.symm.trans hconnected
      rcases hsame hno with ⟨rfl, hclient⟩
      refine ⟨loaded, drained, h.part, h.answers, fun hopen ↦ (h.stage hopen).drained _,
        h.sent.drained _, h.book, h.document, h.waiting, h.unloaded, fun hconnected ↦ ?_, h.live⟩
      rw [hclient]
      exact h.serving hconnected
  | reconnected _ hnull =>
      have hnull : s.orderBookSocket = .null := hnull
      have hunloaded : loaded = [] := h.unloaded (by rw [hnull]; decide)
      cases hconnects with
      | same hno => exact absurd ⟨hnull, rfl⟩ hno
      | @reconnected r _ _ hr =>
          refine ⟨loaded, drained, h.part, h.answers, fun hopen ↦ (h.stage hopen).drained _,
            h.sent.drained _, h.book, .inl hunloaded, h.waiting, fun _ ↦ hunloaded,
            fun _ ↦ ⟨hr, ?_⟩, h.live⟩
          have hclient : (s.withMain urls { s.toMain with orderBookSocket := .connected }).client =
              .new urls.orderBook := if_pos ⟨hnull, rfl⟩
          rw [hclient]
          exact Client.new_serving urls.orderBook r.head r.body
  | rejected _ hready =>
      have hready : s.orderBookReady = false := hready
      have hdrained := h.waiting hready
      rcases hsame (fun hand ↦ by cases hand.2) with ⟨rfl, -⟩
      subst hdrained
      exact ⟨[], [], h.part, h.answers, fun hopen ↦ (h.stage hopen).drained _, h.sent.drained _,
        h.book.clear, .inl rfl, fun _ ↦ rfl, fun _ ↦ rfl, nofun,
        fun hlive ↦ by cases hready.symm.trans hlive⟩
  | @drained book orderBook lastTime hbook hgap hadd hprint =>
      have hclosed : s.orderBookSocket = .closed := hsound.closed (.inl hbook)
      rcases hsame (fun hand ↦ by rw [hclosed] at hand; cases hand.1) with ⟨rfl, -⟩
      have hall : (drained ++ s.diff.mOrders.mOrders) ++ ([] : List Order) =
          drained ++ s.diff.mOrders.mOrders := List.append_nil _
      have hrefines : orderBook.Refines depth
          (Ledger.empty.addAll (loaded ++ (drained ++ s.diff.mOrders.mOrders))) := by
        rcases h.book.addAll s.diff.mOrders.mOrders with ⟨added, he, hadded⟩
        cases he.symm.trans hadd
        rw [← Ledger.addAll_append, List.append_assoc] at hadded
        rcases hprint with rfl | ⟨out, hprint⟩
        · exact hadded
        · exact hadded.of_print hprint
      refine ⟨loaded, drained ++ s.diff.mOrders.mOrders, ?_, h.answers, fun hopen ↦ ?_,
        h.sent.drained _, hrefines, h.document, nofun, fun hne ↦ absurd hclosed hne,
        fun hconnected ↦ ?_, fun _ ↦ ?_⟩
      · show _ ++ [] <+: _
        rw [hall]
        exact h.part
      · show DiffLogic.Stage conv f stale net'.received (_ ++ []) generated _
        rw [hall]
        exact (h.stage hopen).drained _
      · cases hclosed.symm.trans hconnected
      · exact h.passes hbook hgap

theorem Run.fed (hresponse : Head f.response)
    (hfits : ∀ r, served r → Receiver.Fits r.head r.body) (haddress : address < 2 ^ 56)
    (hstale : stale.length = BUFFER_SIZE) (h : Run conv urls f served depth address stale s net) :
    ∃ loaded drained generated,
      Fed conv urls f served depth stale s net loaded drained generated := by
  induction h with
  | start hr => exact ⟨[], [], [], start_fed haddress hstale hr⟩
  | step hrun hstep ih =>
      rcases ih with ⟨loaded, drained, generated, ih⟩
      cases hstep with
      | callback hd hs =>
          rcases ih.handled hresponse hfits hrun.toMain.sound hd hs with ⟨loaded', generated', h'⟩
          exact ⟨loaded', drained, generated', h'⟩
      | afterEvents hs hconnects =>
          rcases ih.settled hrun.toMain.sound hs hconnects with ⟨loaded', drained', h'⟩
          exact ⟨loaded', drained', generated, h'⟩

/-- How far the diff connection is: the response is not over, or its frames are taken off the buffer
one after the other; their orders have been queued, and the pings among them answered. -/
theorem Fed.taken (h : Fed conv urls f served depth stale s net loaded drained generated)
    (hopen : s.diffOpen = true) :
    (net.received.length < f.response.length + 4 ∧ drained ++ s.diff.mOrders.mOrders = [] ∧
        generated = []) ∨
      ∃ k, net.received = f.front k ++ s.diff.pending ∧
        drained ++ s.diff.mOrders.mOrders = f.orders conv k ∧ generated = f.answers k := by
  have hstage := h.stage hopen
  generalize net.received = received at hstage
  generalize drained ++ s.diff.mOrders.mOrders = total at hstage
  generalize generated = answers at hstage
  cases hstage with
  | handshake => exact .inl ⟨Nat.lt_add_left _ (by decide), rfl, rfl⟩
  | response hgot hlt => exact .inl ⟨hlt, rfl, rfl⟩
  | @frames k _ hwork hends => exact .inr ⟨k, rfl, rfl, rfl⟩

theorem Run.diffWrite {s : System n} {net : Network}
    (h : Run conv urls f served depth address stale s net) (hopen : s.diffOpen = true)
    {limits : List Nat} {diff : DiffLogic n} {accepted : List (List UInt8)}
    (hwrite : s.diff.onWrite urls.diff limits = some (diff, accepted)) :
    Run conv urls f served depth address stale { s with diff }
      { net with sent := net.sent ++ accepted.flatten } := by
  have hdelivers : Delivers conv urls f s net (.diffWrite limits)
      { net with sent := net.sent ++ s.accepts urls limits } := .diffWrite
  rw [accepts_eq hopen hwrite] at hdelivers
  exact h.step (.callback hdelivers (handle_diffWrite hopen hwrite))

/-- A callback of the connection brings the document closer, or into the book. -/
theorem serving_step (s : System n) (net : Network) (hconnected : s.orderBookSocket = .connected)
    (h : Client.Serving (snapshotRequest urls.orderBook) net.response.head net.response.body
      s.client net.incoming)
    (hfits : Receiver.Fits net.response.head net.response.body)
    (hlt : (snapshotRequest urls.orderBook).length < 2 ^ 64) {orderBook : OrderBook}
    (hjson : processJson conv net.response.body s.orderBook = .returned orderBook) :
    ∃ client incoming,
      Step conv urls f served (s, net)
          ({ s with orderBook, client, orderBookSocket := .closed }, { net with incoming }) ∨
        Step conv urls f served (s, net) ({ s with client }, { net with incoming }) ∧
          Client.Serving (snapshotRequest urls.orderBook) net.response.head net.response.body
            client incoming ∧
          client.remaining incoming < s.client.remaining net.incoming := by
  cases hwait : s.client.receiver.mWaitForRead with
  | false =>
      rcases h.onWrite_all hlt hwait with ⟨client, hwrite, hless⟩
      exact ⟨client, net.incoming, .inr
        ⟨.callback .snapshotWrite (handle_snapshotWrite hconnected hwrite),
          (h.onWrite _ _).2 client hwrite, hless⟩⟩
  | true =>
      rcases h.onRead_one hfits hwait with ⟨client, hread, hless⟩
      rcases (h.onRead hfits .one [1]).2 client hread with ⟨hserving, hdelivers⟩
      have hhandle : s.handle conv urls _ = _ := handle_snapshotRead hconnected hread
      refine ⟨client, s.client.leaves (strstr HTTP_DELIMITER) .one [1] net.incoming, ?_⟩
      by_cases hnil : s.client.leaves (strstr HTTP_DELIMITER) .one [1] net.incoming = []
      · -- it was the last byte
        rw [hdelivers, if_pos hnil] at hhandle
        refine .inl (.callback (.snapshotRead hconnected) (hhandle.trans ?_))
        simp only [afterClient, System.store, hjson]
      · rw [hdelivers, if_neg hnil] at hhandle
        exact .inr ⟨.callback (.snapshotRead hconnected) hhandle, hserving hnil, hless⟩

/-- While the connection is there, its document can come into the book; nothing else need happen
on the way. -/
theorem serving_loads (s : System n) (net : Network) (hconnected : s.orderBookSocket = .connected)
    (h : Client.Serving (snapshotRequest urls.orderBook) net.response.head net.response.body
      s.client net.incoming)
    (hfits : Receiver.Fits net.response.head net.response.body)
    (hlt : (snapshotRequest urls.orderBook).length < 2 ^ 64) {orderBook : OrderBook}
    (hjson : processJson conv net.response.body s.orderBook = .returned orderBook) :
    ∃ client incoming, Relation.ReflTransGen (Step conv urls f served) (s, net)
      ({ s with orderBook, client, orderBookSocket := .closed }, { net with incoming }) := by
  have hdone := reach_done (r := Step conv urls f served)
    (P := fun x ↦ ∃ client incoming, x = ({ s with client }, { net with incoming }) ∧
      Client.Serving (snapshotRequest urls.orderBook) net.response.head net.response.body
        client incoming)
    (Q := fun x ↦ ∃ client incoming,
      x = ({ s with orderBook, client, orderBookSocket := .closed }, { net with incoming }))
    (fun x ↦ x.1.client.remaining x.2.incoming) ?_ ⟨s.client, net.incoming, rfl, h⟩
  · rcases hdone with ⟨x, hsteps, client, incoming, rfl⟩
    exact ⟨client, incoming, hsteps⟩
  · rintro x ⟨client, incoming, rfl, hserving⟩
    rcases serving_step { s with client } { net with incoming } hconnected hserving hfits hlt hjson
      with ⟨client', incoming', hstored | ⟨hstep, hserving', hless⟩⟩
    · exact ⟨_, hstored, .inl ⟨client', incoming', rfl⟩⟩
    · exact ⟨_, hstep, .inr ⟨⟨client', incoming', rfl, hserving'⟩, hless⟩⟩

theorem Run.steps {x : System n × Network} (h : Run conv urls f served depth address stale s net)
    (hsteps : Relation.ReflTransGen (Step conv urls f served) (s, net) x) :
    Run conv urls f served depth address stale x.1 x.2 :=
  reach_keeps (P := fun x : System n × Network ↦
    Run conv urls f served depth address stale x.1 x.2) (fun _ _ hrun hstep ↦ hrun.step hstep) h
    hsteps

/-! ## A run -/

/-- A bid and an ask of one second, and the frame that lists them. -/
def quote : List Order :=
  [⟨Order.BUY, 5, 3000000, 1000000⟩, ⟨Order.SELL, 5, 4000000, 1000000⟩]

def quoteRoot : Json :=
  .object [("asks", .array [.array [.string "4", .string "1"]]),
    ("bids", .array [.array [.string "3", .string "1"]]), ("timestamp", .string "5")]

def quoteText : String :=
  "\x7b\"timestamp\":\"5\",\"bids\":[[\"3\",\"1\"]],\"asks\":[[\"4\",\"1\"]]\x7d"

def quotePayload : List UInt8 :=
  ascii ("\x7b\"data\":\"\x7b\\\"timestamp\\\":\\\"5\\\",\\\"bids\\\":" ++
    "[[\\\"3\\\",\\\"1\\\"]],\\\"asks\\\":[[\\\"4\\\",\\\"1\\\"]]\x7d\"\x7d")

def quoteFrame : WireFrame := ⟨0x81, .short, none, quotePayload, by decide +kernel⟩

/-- The server pings before it sends the quote. -/
def quoteStream : DiffStream := ⟨DiffLogic.switching, [DiffLogic.pingFrame, quoteFrame]⟩

/-- The snapshot with the bid, and spaces behind it. -/
def firstBid : Response := ⟨bidHead, bidBody⟩

def ServesFirstBid (r : Response) : Prop := r = firstBid

def quoteConv : Conversions := .ofReader Reader.wholeNumbers

theorem firstBid_fits : Receiver.Fits firstBid.head firstBid.body where
  wellFormed := Head.of_strstr (by decide +kernel)
  bodySize := by
    rw [firstBid, bidBody_length]
    rfl
  headerFits := by decide
  bodyFills := le_of_eq bidBody_length.symm
  bound := by
    rw [firstBid, bidBody_length]
    decide

theorem firstBid_document : IsDocument Reader.wholeNumbers Main.oneBid firstBid.body := by
  have htext : Main.oneBidText =
      123 :: (Writer.writeMembers (sideMembers [levelAt "3"] []) ++ [125]) := by
    decide +kernel
  rw [firstBid, bidBody, htext]
  refine isDocument_object (List.cons_ne_nil _ _) (sideMembers_stored ?_ ?_) rfl _
  · exact List.forall_mem_singleton.mpr (levelAt_stored "3")
  · exact fun v hv ↦ absurd hv List.not_mem_nil

theorem firstBid_parse : quoteConv.parse firstBid.body = .ok (some Main.oneBid) :=
  (Conversions.ofReader_reads _).parse_document firstBid_document

theorem quote_message : IsMessage Reader.wholeNumbers quoteRoot quotePayload := by
  have hpayload : quotePayload =
      123 :: (Writer.writeMembers [(ascii "data", .string (ascii quoteText))] ++ [125]) ++ [] :=
    by decide +kernel
  have htext : quoteText.toUTF8.toList =
      123 :: (Writer.writeMembers (sideMembers [levelAt "3"] [levelAt "4"]) ++ [125]) ++ [] := by
    decide +kernel
  refine ⟨.object [("data", .string quoteText)], quoteText, ?_, rfl, ?_⟩
  · rw [hpayload]
    exact isDocument_object (List.cons_ne_nil _ _) (List.forall_mem_singleton.mpr .string) rfl _
  · rw [htext]
    refine isDocument_object (List.cons_ne_nil _ _) (sideMembers_stored ?_ ?_) rfl _
    · exact List.forall_mem_singleton.mpr (levelAt_stored "3")
    · exact List.forall_mem_singleton.mpr (levelAt_stored "4")

theorem quoteFrame_orders :
    payloadOrders quoteConv quoteFrame.plain = (quote, .returns) := by
  have horders := (Conversions.ofReader_reads _).payloadOrders_message quote_message
  exact horders.trans rfl

/-- The payload of the ping is no document. -/
theorem ping_rejected : Reader.wholeNumbers.parse DiffLogic.pingFrame.plain = .ok none := by
  have htoken : Reader.skipCommentTokens [0x78] = (⟨.tokenError, [0x78]⟩, []) :=
    Reader.skipCommentTokens_of_ne (by decide)
  have hread : Reader.readValue Reader.wholeNumbers Reader.stackLimit [0x78] = .ok (none, []) := by
    rw [Reader.stackLimit, Reader.readValue, htoken]
    rfl
  show Reader.wholeNumbers.parse [0x78] = _
  rw [Reader.parse, hread]
  rfl

theorem ping_orders : payloadOrders quoteConv DiffLogic.pingFrame.plain = ([], .returns) := by
  have hreads : quoteConv.Reads Reader.wholeNumbers := Conversions.ofReader_reads _
  rw [payloadOrders, hreads.rejects _ ping_rejected, parsedOrders]

/-- The client over a buffer of zeros, when the request is out. -/
def quoteRequested : DiffLogic 1000 :=
  ⟨0x10000, 0, List.replicate BUFFER_SIZE 0, .handshakeResponse, [], .empty⟩

theorem quoteRequested_got : DiffLogic.Got quoteRequested.mBuffer [] quoteRequested :=
  ⟨⟨List.length_replicate, Nat.zero_le _, by decide⟩, rfl, rfl, (List.nil_append _).symm⟩

/-- The response in one read, and each frame in one of its own. -/
def quoteReads : List (List UInt8) :=
  [DiffLogic.switching ++ HTTP_DELIMITER, DiffLogic.pingFrame.bytes, quoteFrame.bytes]

def quoteQueue : List OutputFrame := [DiffLogic.subscribed, ⟨[0x8a, 0x00], 2, 0⟩]

theorem quote_read : ∃ d : DiffLogic 1000,
    quoteRequested.onRead quoteConv quoteReads = .returned d ∧ d.mOrders.mOrders = quote ∧
    d.pending = [] ∧ d.mState ≠ .handshake ∧ d.mOutputQueue = quoteQueue ∧
    DiffLogic.AllInTime quoteConv quoteStream [] quoteRequested quoteReads := by
  have hne : DiffLogic.switching ++ HTTP_DELIMITER ≠ [] :=
    List.append_ne_nil_of_right_ne_nil _ delimiter_ne_nil
  have hroom : quoteRequested.mOffset + (DiffLogic.switching ++ HTTP_DELIMITER).length ≤
      BUFFER_SIZE := by decide
  rcases DiffLogic.readStep_response DiffLogic.switching_head quoteRequested_got hroom quoteConv
    with ⟨d₁, hfirst, hview, hwork, hzero⟩
  have hpong : DiffLogic.dispatchFrame (.of quoteConv DiffLogic.pingFrame) d₁.view =
      .returned (.empty, quoteQueue) := by
    rw [hview, Dealt.of_eq ping_orders, DiffLogic.dispatchFrame]
    rfl
  have hroom₁ : d₁.mOffset + DiffLogic.pingFrame.bytes.length ≤ BUFFER_SIZE := by
    rw [hzero]
    decide
  rcases DiffLogic.readStep_whole hwork hzero hroom₁ (by decide) hpong with
    ⟨d₂, hsecond, hview₂, hwork₂, hleft₂⟩
  have hzero₂ : d₂.mOffset = 0 := by
    rw [← hwork₂.valid.length_pending, hleft₂]
    rfl
  have hstored : DiffLogic.dispatchFrame (.of quoteConv quoteFrame) d₂.view =
      .returned (⟨quote⟩, quoteQueue) := by
    rw [hview₂, Dealt.of_eq quoteFrame_orders, DiffLogic.dispatchFrame]
    rfl
  have hroom₂ : d₂.mOffset + quoteFrame.bytes.length ≤ BUFFER_SIZE := by
    rw [hzero₂]
    decide
  rcases DiffLogic.readStep_whole hwork₂ hzero₂ hroom₂ (by decide) hstored with
    ⟨d₃, hthird, hqueue, hwork₃, hleft⟩
  have hstate {d : DiffLogic 1000} (h : d.InWork) : d.mState ≠ .handshake := by
    rw [h.mState]
    decide
  -- in `IN_WORK` only the first of the two conditions matters
  have htime {d : DiffLogic 1000} (h : d.InWork) (received chunk : List UInt8) :
      DiffLogic.InTime quoteStream received chunk d := by
    refine ⟨hstate h, fun hresponse ↦ ?_⟩
    rw [h.mState] at hresponse
    cases hresponse
  refine ⟨d₃, ?_, congrArg (Orders.mOrders ∘ Prod.fst) hqueue, hleft, hstate hwork₃,
    congrArg Prod.snd hqueue, hne, hroom, List.prefix_append _ _,
    ⟨by decide, fun _ ↦ le_refl _⟩, ?_⟩
  · rw [quoteReads, DiffLogic.onRead_cons _ _ hne, hfirst, Outcome.andThen_returned,
      DiffLogic.onRead_cons _ _ (by decide), hsecond, Outcome.andThen_returned,
      DiffLogic.onRead_cons _ _ (by decide), hthird]
    rfl
  · intro d' hd'
    rw [hfirst] at hd'
    cases hd'
    refine ⟨by decide, hroom₁, ⟨quoteFrame.bytes, rfl⟩, htime hwork _ _, fun d' hd' ↦ ?_⟩
    rw [hsecond] at hd'
    cases hd'
    exact ⟨by decide, hroom₂, ⟨[], rfl⟩, htime hwork₂ _ _, fun _ _ ↦ trivial⟩

def QuoteRun : System 1000 → Network → Prop :=
  Run quoteConv exampleUrls quoteStream ServesFirstBid 3 0x10000 quoteRequested.mBuffer

-- The subscription and the pong go out with one call.
theorem onWrite_quoteQueue {d : DiffLogic n} (hstate : d.mState ≠ .handshake)
    (hqueue : d.mOutputQueue = quoteQueue) (url : Url) :
    d.onWrite url [4096, 4096] =
      some ({ d with mOutputQueue := [] }, [DiffLogic.subscribed.frame, [0x8a, 0x00]]) := by
  have hloop : DiffLogic.writeLoop [4096, 4096] quoteQueue =
      some ([], [DiffLogic.subscribed.frame, [0x8a, 0x00]]) := by decide +kernel
  rw [DiffLogic.onWrite, if_neg hstate, hqueue, hloop]
  rfl

/-- The state before the loop, with zeros in the buffer of the diff client. -/
def quoteStart : System 1000 := start exampleUrls 3 0x10000 quoteRequested.mBuffer

/-- What goes out on the diff connection. -/
def quoteSent : List UInt8 :=
  upgradeRequest exampleUrls.diff ++ (DiffLogic.subscribed.frame ++ [0x8a, 0x00])

theorem quote_subscribed : ∃ d : DiffLogic 1000,
    QuoteRun { quoteStart with diff := d }
      ⟨quoteStream.front 2, quoteSent, firstBid, firstBid.bytes⟩ ∧
    d.mOrders.mOrders = quote ∧ d.pending = [] := by
  have hstart : QuoteRun quoteStart ⟨[], [], firstBid, firstBid.bytes⟩ := .start rfl
  have hrequest : quoteStart.diff.onWrite exampleUrls.diff
      [(upgradeRequest exampleUrls.diff).length] =
      some (quoteRequested, [upgradeRequest exampleUrls.diff]) := by
    have hwrite := start_onWrite (n := 1000) exampleUrls 3 0x10000 quoteRequested.mBuffer
      [(upgradeRequest exampleUrls.diff).length]
    rw [List.headD_cons, List.take_length] at hwrite
    exact hwrite
  rcases quote_read with ⟨d, hread, hqueue, hpending, hstate, hsubscribed, htime⟩
  have hupgraded := (hstart.diffWrite rfl hrequest).step
    (.callback (.diffRead rfl htime) (handle_diffRead rfl hread))
  have hrun := hupgraded.diffWrite rfl (onWrite_quoteQueue hstate hsubscribed exampleUrls.diff)
  have hsent (request subscription pong : List UInt8) :
      [] ++ [request].flatten ++ [subscription, pong].flatten =
        request ++ (subscription ++ pong) := by simp
  have hall : [] ++ quoteReads.flatten = quoteStream.front 2 := by
    have hws : quoteStream.ws.take 2 = quoteStream.ws := List.take_of_length_le (Nat.le_refl 2)
    rw [DiffStream.front, hws]
    simp only [quoteReads, quoteStream, WireFrame.stream, List.flatten_cons, List.flatten_nil,
      List.nil_append, List.append_assoc]
  rw [hsent, hall] at hrun
  exact ⟨_, hrun, hqueue, hpending⟩

/-- The diffs come in first, then the snapshot, and the loop goes live. -/
theorem quote_run : ∃ s net, QuoteRun s net ∧ s.orderBookReady = true ∧
    s.diffOpen = true ∧ s.diff.mOrders.mOrders = [] ∧ s.diff.pending = [] ∧
    net.received = quoteStream.front 2 ∧ net.sent = quoteSent ∧
    s.orderBook.toBool = true ∧ s.orderBook.mAsk.visible ≠ [] := by
  rcases quote_subscribed with ⟨d, hsubscribed, hqueue, hpending⟩
  -- the book with the document, and what the loop makes of it
  have hbook : ∃ book, (OrderBook.new 3).addAll (levelOrders Order.BUY 5 [(3000000, 1000000)] ++
      levelOrders Order.SELL 5 []) = some book ∧ ∃ m : Main 1000,
        Main.afterEvents ⟨book, ⟨quote⟩, true, .closed, false, 0⟩ ⟨0, 0, 0⟩ = .returned m ∧
        m.orderBookReady = true ∧ m.diffOpen = true ∧ m.orders.mOrders = [] ∧
        m.orderBook.toBool = true ∧ m.orderBook.mAsk.visible ≠ [] :=
    ⟨_, rfl, _, rfl, rfl, rfl, rfl, rfl, List.cons_ne_nil _ _⟩
  rcases hbook with ⟨book, hadd, m, hafter, hready, hopen, hempty, hlevel, hasks⟩
  have hroot : IsSnapshot quoteConv Main.oneBid 5 [(3000000, 1000000)] [] :=
    ⟨rfl, ⟨_, rfl, rfl⟩, ⟨_, rfl, rfl⟩⟩
  have hjson : processJson quoteConv firstBid.body (.new 3) = .returned book := by
    unfold processJson
    rw [firstBid_parse]
    simp only [hroot.storeSnapshot_eq, addThen, hadd]
  have hrequest : (snapshotRequest exampleUrls.orderBook).length < 2 ^ 64 := by decide +kernel
  rcases serving_loads { quoteStart with diff := d }
    ⟨quoteStream.front 2, quoteSent, firstBid, firstBid.bytes⟩ rfl
    (Client.new_serving exampleUrls.orderBook firstBid.head firstBid.body) firstBid_fits hrequest
    hjson with ⟨client, incoming, hloads⟩
  have hloaded := hsubscribed.steps hloads
  let s : System 1000 :=
    { quoteStart with diff := d, orderBook := book, client, orderBookSocket := .closed }
  have hmain : s.toMain = ⟨book, ⟨quote⟩, true, .closed, false, 0⟩ := by
    have horders : d.mOrders = ⟨quote⟩ := congrArg Orders.mk hqueue
    unfold toMain
    simp only [s, horders]
    rfl
  have hpassed : s.afterEvents exampleUrls ⟨0, 0, 0⟩ = .returned (s.withMain exampleUrls m) := by
    rw [System.afterEvents, hmain, hafter]
    rfl
  have hlive := hloaded.step (.afterEvents hpassed (.same fun hand ↦ by cases hand.1))
  exact ⟨_, _, hlive, hready, hopen, hempty, hpending, rfl, rfl, hlevel, hasks⟩

theorem firstBid_allFit : ∀ r, ServesFirstBid r → Receiver.Fits r.head r.body := by
  rintro r rfl
  exact firstBid_fits

theorem quote_listed : quoteStream.ws.flatMap (DiffLogic.listed quoteConv) = quote := by
  show DiffLogic.listed quoteConv DiffLogic.pingFrame ++
    (DiffLogic.listed quoteConv quoteFrame ++ []) = quote
  rw [List.append_nil, DiffLogic.listed, DiffLogic.listed, ping_orders, quoteFrame_orders]
  rfl

-- All that has come in is the response and both frames.
theorem quote_all {j : Nat} (h : quoteStream.front 2 = quoteStream.front j) :
    quoteStream.ws.take j = quoteStream.ws := by
  have htwo : 2 ≤ j := by
    by_contra hless
    interval_cases j <;> revert h <;> decide +kernel
  exact List.take_of_length_le htwo

theorem quote_orders {j : Nat} (h : quoteStream.front 2 = quoteStream.front j) :
    quoteStream.orders quoteConv j = quote := by
  rw [DiffStream.orders, quote_all h, quote_listed]

/-! ## What the sockets carry -/

/-- In every run the book is what the document of the last response, if it has been loaded, and the
drained diffs leave of the empty one.  The diffs drained and those still queued are the orders of
the frames that have been taken off the stream: none is lost, none comes twice, and they keep their
order. -/
theorem book_of_streams (hresponse : Head f.response)
    (hfits : ∀ r, served r → Receiver.Fits r.head r.body) (haddress : address < 2 ^ 56)
    (hstale : stale.length = BUFFER_SIZE) (h : Run conv urls f served depth address stale s net) :
    ∃ loaded drained, s.orderBook.Refines depth (Ledger.empty.addAll (loaded ++ drained)) ∧
      (loaded = [] ∨ served net.response ∧ ∃ root,
        conv.parse net.response.body = .ok (some root) ∧ loaded = (snapshotOrders conv root).1) ∧
      drained ++ s.diff.mOrders.mOrders <+: f.ws.flatMap (DiffLogic.listed conv) ∧
      (s.diffOpen = true →
        (net.received.length < f.response.length + 4 ∧ drained ++ s.diff.mOrders.mOrders = []) ∨
          ∃ k, net.received = f.front k ++ s.diff.pending ∧
            drained ++ s.diff.mOrders.mOrders = f.orders conv k) := by
  rcases h.fed hresponse hfits haddress hstale with ⟨loaded, drained, generated, hfed⟩
  refine ⟨loaded, drained, hfed.book, hfed.document, hfed.part, fun hopen ↦ ?_⟩
  rcases hfed.taken hopen with ⟨hlt, hnone, -⟩ | ⟨k, hreceived, hqueued, -⟩
  · exact .inl ⟨hlt, hnone⟩
  · exact .inr ⟨k, hreceived, hqueued⟩

theorem book_of_streams_example : ∃ s net, QuoteRun s net ∧ s.orderBookReady = true ∧
    ∃ loaded, s.orderBook.Refines 3 (Ledger.empty.addAll (loaded ++ quote)) := by
  rcases quote_run with ⟨s, net, hrun, hready, hopen, hempty, hpending, hreceived, -⟩
  rcases book_of_streams DiffLogic.switching_head firstBid_allFit (by decide)
    List.length_replicate hrun with ⟨loaded, drained, hbook, -, -, htaken⟩
  refine ⟨s, net, hrun, hready, loaded, ?_⟩
  rw [hpending, hempty, hreceived] at htaken
  rcases htaken hopen with ⟨hlt, -⟩ | ⟨j, hj, hdrained⟩
  · exact absurd hlt (by decide +kernel)
  · rw [List.append_nil] at hj hdrained
    rw [← quote_orders hj, ← hdrained]
    exact hbook

/-- What goes out on the diff connection in every run is a part of the request, then the
subscription and one empty pong for each ping that has been taken off the stream, in their order.
What has not been accepted waits in the queue. -/
theorem sent_of_streams (hresponse : Head f.response)
    (hfits : ∀ r, served r → Receiver.Fits r.head r.body) (haddress : address < 2 ^ 56)
    (hstale : stale.length = BUFFER_SIZE) (h : Run conv urls f served depth address stale s net) :
    ∃ request accepted generated, net.sent = request ++ accepted ∧
      request <+: upgradeRequest urls.diff ∧
      accepted ++ unsent s.diff.mOutputQueue = (generated.map OutputFrame.frame).flatten ∧
      generated <+: f.answers f.ws.length ∧
      (s.diffOpen = true →
        (net.received.length < f.response.length + 4 ∧ generated = []) ∨
          ∃ k, net.received = f.front k ++ s.diff.pending ∧ generated = f.answers k) := by
  rcases h.fed hresponse hfits haddress hstale with ⟨loaded, drained, generated, hfed⟩
  rcases hfed.sent.bytes with ⟨request, accepted, hrequest, hsent, hbytes⟩
  refine ⟨request, accepted, generated, hsent, hrequest, hbytes, hfed.answers, fun hopen ↦ ?_⟩
  rcases hfed.taken hopen with ⟨hlt, -, hnone⟩ | ⟨k, hreceived, -, hanswers⟩
  · exact .inl ⟨hlt, hnone⟩
  · exact .inr ⟨k, hreceived, hanswers⟩

theorem sent_of_streams_example : ∃ s net, QuoteRun s net ∧ net.sent = quoteSent ∧
    ∃ request accepted, net.sent = request ++ accepted ∧
      request <+: upgradeRequest exampleUrls.diff ∧
      accepted ++ unsent s.diff.mOutputQueue = DiffLogic.subscribed.frame ++ [0x8a, 0x00] := by
  rcases quote_run with ⟨s, net, hrun, -, hopen, -, hpending, hreceived, hsent, -⟩
  rcases sent_of_streams DiffLogic.switching_head firstBid_allFit (by decide)
    List.length_replicate hrun with ⟨request, accepted, generated, hparts, hrequest, hbytes, -,
      htaken⟩
  refine ⟨s, net, hrun, hsent, request, accepted, hparts, hrequest, ?_⟩
  rw [hreceived, hpending] at htaken
  rcases htaken hopen with ⟨hlt, -⟩ | ⟨k, hk, hgenerated⟩
  · exact absurd hlt (by decide +kernel)
  · -- the ping has been taken off, and its pong goes out behind the subscription
    rw [List.append_nil] at hk
    rw [hgenerated, DiffStream.answers, quote_all hk] at hbytes
    exact hbytes

end System

end Tob
