import Tob.Diff.Backlog
import Tob.Diff.Generate
import Tob.Diff.Messages

/-!
# Frames one after the other

Seen from outside of the buffer, a call of `on_read` deals with the frames it takes off the stream
in turn: an answer to a ping goes to the output queue and the orders of the payload to the order
queue, up to the first frame at which it throws or aborts.
-/

namespace Tob

def WireFrame.opcode (w : WireFrame) : UInt8 := w.first &&& 0x0f

/-- A frame with the orders its payload lists and the way dealing with it ends. -/
structure Dealt where
  frame : WireFrame
  orders : List Order
  ending : Ending

/-- What is made of a frame when `parse` has made something of its payload. -/
def Dealt.parsed (conv : Conversions) (w : WireFrame) (parsed : Except String (Option Json)) :
    Dealt :=
  ⟨w, (parsedOrders conv parsed).1, (parsedOrders conv parsed).2⟩

/-- `parse` sees the payload, and nothing behind it. -/
def Dealt.of (conv : Conversions) (w : WireFrame) : Dealt := .parsed conv w (conv.parse w.plain)

theorem Dealt.of_eq {conv : Conversions} {w : WireFrame} {orders : List Order} {ending : Ending}
    (h : payloadOrders conv w.plain = (orders, ending)) :
    Dealt.of conv w = ⟨w, orders, ending⟩ := by
  show Dealt.mk w (payloadOrders conv w.plain).1 (payloadOrders conv w.plain).2 = _
  rw [h]

namespace DiffLogic

open WireFrame

variable {n : Nat} {conv : Conversions}

/-- What a frame can change beside the buffer. -/
def view (d : DiffLogic n) : Orders n × List OutputFrame := (d.mOrders, d.mOutputQueue)

/-- The pong for a ping, which has no payload. -/
def answers (w : WireFrame) : List OutputFrame :=
  if w.opcode = Frame.PING then [entry Frame.PONG.toUInt64 [] 0] else []

/-- The orders in the payload of a frame, up to the first level that does not convert. -/
def listed (conv : Conversions) (w : WireFrame) : List Order := (payloadOrders conv w.plain).1

def dispatchFrame (w : Dealt) (v : Orders n × List OutputFrame) :
    Outcome (Orders n × List OutputFrame) :=
  (v.1.storeThen w.orders w.ending).map fun orders ↦ (orders, v.2 ++ answers w.frame)

theorem dispatchFrame_orders (w : Dealt) (v : Orders n × List OutputFrame) :
    (dispatchFrame w v).map Prod.fst = v.1.storeThen w.orders w.ending := by
  rw [dispatchFrame, Outcome.map_map, Outcome.map_id]

theorem dispatchFrame_state? (w : Dealt) (v : Orders n × List OutputFrame) :
    (dispatchFrame w v).state? =
      some (⟨v.1.mOrders ++ w.orders.take (n - v.1.mOrders.length)⟩, v.2 ++ answers w.frame) := by
  rw [dispatchFrame, Outcome.map_state?]
  exact ⟨_, Orders.storeThen_state? _ _ _, rfl⟩

theorem dispatchFrame_returned_iff (w : Dealt) (v v' : Orders n × List OutputFrame) :
    dispatchFrame w v = .returned v' ↔
      w.ending = .returns ∧ w.orders.length ≤ n - v.1.mOrders.length ∧
        v' = (⟨v.1.mOrders ++ w.orders⟩, v.2 ++ answers w.frame) := by
  have hreturned := v.1.storeThen_returned_iff w.orders w.ending
  have hstate := dispatchFrame_state? w v
  unfold dispatchFrame at hstate ⊢
  rw [← and_assoc, ← hreturned]
  cases hstored : v.1.storeThen w.orders w.ending with
  | returned orders =>
      rw [hstored] at hstate hreturned
      have hfits : w.orders.length ≤ n - v.1.mOrders.length := (hreturned.mp ⟨orders, rfl⟩).2
      rw [List.take_of_length_le hfits] at hstate
      rw [← Option.some.inj hstate]
      show Outcome.returned (orders, v.2 ++ answers w.frame) = .returned v' ↔ _
      rw [Outcome.returned.injEq, eq_comm]
      simp
  | threw what orders => simp [Outcome.map]
  | aborted orders => simp [Outcome.map]
  | undefined => simp [Outcome.map]

def dispatch : List Dealt → Orders n × List OutputFrame → Outcome (Orders n × List OutputFrame)
  | [], v => .returned v
  | w :: ws, v => (dispatchFrame w v).andThen fun v ↦ dispatch ws v

theorem dispatch_append (ws ws' : List Dealt) (v : Orders n × List OutputFrame) :
    dispatch (ws ++ ws') v = (dispatch ws v).andThen fun v ↦ dispatch ws' v := by
  induction ws generalizing v with
  | nil => rfl
  | cons w ws ih =>
      rw [List.cons_append, dispatch, dispatch, Outcome.andThen_assoc]
      exact congrArg _ (funext ih)

theorem dispatch_singleton (w : Dealt) (v : Orders n × List OutputFrame) :
    dispatch [w] v = dispatchFrame w v := Outcome.andThen_returned_right _

/-! ## One read -/

theorem receive_view {d d' : DiffLogic n} {chunk : List UInt8} (h : d.receive chunk = some d') :
    d'.view = d.view := by
  rcases Option.map_eq_some_iff.mp h with ⟨mBuffer, -, hd⟩
  rw [view, ← hd]
  rfl

theorem takeFrame_view {d d' : DiffLogic n} {stop : Nat} (h : d.takeFrame stop = some d') :
    d'.view = d.view := by
  rcases Option.bind_eq_some_iff.mp h with ⟨bytes, -, hwrite⟩
  rcases Option.map_eq_some_iff.mp hwrite with ⟨mBuffer, -, hd⟩
  rw [view, ← hd]
  rfl

theorem answerPing_view {d d' : DiffLogic n} {w : WireFrame} {data : Nat}
    (h : d.answerPing (w.decoded data) = some d') :
    d'.view = (d.mOrders, d.mOutputQueue ++ answers w) := by
  have htype : (w.decoded data).type = w.opcode := rfl
  unfold answerPing at h
  unfold answers
  rw [htype] at h
  by_cases hping : w.opcode = Frame.PING
  · rw [if_pos hping, generateFrame_entry d _ 0 (by decide), Option.some_inj] at h
    rw [if_pos hping, ← h]
    rfl
  · rw [if_neg hping, Option.some_inj] at h
    rw [if_neg hping, ← h, List.append_nil]
    rfl

theorem Holds.onParsed_view {d : DiffLogic n} {front rest : List UInt8} (h : d.Holds front rest)
    (conv : Conversions) (parsed : Except String (Option Json)) :
    (d.onParsed conv parsed (d.address + front.length)).map view =
      (d.mOrders.storeThen (parsedOrders conv parsed).1 (parsedOrders conv parsed).2).map
        fun orders ↦ (orders, d.mOutputQueue) := by
  unfold DiffLogic.onParsed parsedOrders
  cases parsed with
  | error what => rfl
  | ok parsed =>
      cases parsed with
      | none =>
          rcases h.takeFrame with ⟨d', htake, -⟩
          show (Outcome.attempt (d.takeFrame _) .returned).map view = .returned d.view
          rw [htake, Outcome.attempt_some, ← takeFrame_view htake]
          rfl
      | some root =>
          simp only [storeMessage_eq]
          cases hstored : d.mOrders.storeThen (messageOrders conv root).1
              (messageOrders conv root).2 with
          | returned mOrders =>
              have h' : Holds { d with mOrders } front rest :=
                ⟨⟨h.valid.buffer, h.valid.offset, h.valid.address⟩, h.mBuffer, h.mOffset⟩
              rcases h'.takeFrame with ⟨d', htake, -⟩
              show (Outcome.attempt (DiffLogic.takeFrame { d with mOrders } _) .returned).map view =
                .returned (view { d with mOrders })
              rw [htake, Outcome.attempt_some, ← takeFrame_view htake]
              rfl
          | threw what mOrders => rfl
          | aborted mOrders => rfl
          | undefined => rfl

/-- A frame step on a complete frame deals with what `parse` makes of it. -/
theorem frameStepBehind_dispatch {d : DiffLogic n} (hv : d.Valid) {w : WireFrame}
    {rest : List UInt8} (hp : d.pending = w.bytes ++ rest) (hlast : ¬ (w.Bare ∧ rest = [])) :
    ∃ b, d.lookahead = some (w.plain, b) ∧ ∀ parse conv,
      (d.frameStepBehind parse conv).map view =
        dispatchFrame (.parsed conv w (parse b w.plain)) d.view ∧
      (d.frameStepBehind parse conv).Ensures fun d' ↦ Leaves d d' rest := by
  rcases frameStepBehind_eq_onParsed hv hp hlast with
    ⟨d₁, front, b, hholds, hstate, haddress, ⟨mBuffer, hping⟩, hlook, hstep⟩
  have hanswer := answerPing_view hping
  -- a pong is queued before the payload is looked at
  have horders : d₁.mOrders = d.mOrders := congrArg Prod.fst hanswer
  have hqueue : d₁.mOutputQueue = d.mOutputQueue ++ answers w := congrArg Prod.snd hanswer
  refine ⟨b, hlook, fun parse conv ↦ ⟨?_, ?_⟩⟩
  · rw [hstep, hholds.onParsed_view, horders, hqueue]
    rfl
  · rw [hstep]
    apply (hholds.onParsed conv (parse b w.plain)).imp
    intro d' hl
    exact ⟨hl.valid, hl.pending, hl.mState.trans hstate, hl.address.trans haddress⟩

/-- A read that completes a frame deals with it. -/
theorem readStep_dispatch (conv : Conversions) {d : DiffLogic n} (h : d.InWork)
    {chunk rest : List UInt8} (hroom : d.mOffset + chunk.length ≤ BUFFER_SIZE) {w : WireFrame}
    (hgot : d.pending ++ chunk = w.bytes ++ rest) (hlast : ¬ (w.Bare ∧ rest = [])) :
    (d.readStep conv chunk).map view = dispatchFrame (.of conv w) d.view := by
  rcases receive_inWork h hroom with ⟨d₁, hreceive, h₁, hpending, -, hstep⟩
  rcases frameStepBehind_dispatch h₁.valid (hpending.trans hgot) hlast with ⟨b, -, hframe⟩
  rw [← receive_view hreceive]
  exact (congrArg (Outcome.map view) (hstep _ conv)).trans (hframe (fun _ ↦ conv.parse) conv).1

theorem readStep_orders (conv : Conversions) {d : DiffLogic n} (h : d.InWork)
    {chunk rest : List UInt8} (hroom : d.mOffset + chunk.length ≤ BUFFER_SIZE) {w : WireFrame}
    (hgot : d.pending ++ chunk = w.bytes ++ rest) (hlast : ¬ (w.Bare ∧ rest = [])) :
    (d.readStep conv chunk).map mOrders =
      d.mOrders.storeThen (payloadOrders conv w.plain).1 (payloadOrders conv w.plain).2 := by
  have horders := congrArg (Outcome.map Prod.fst) (readStep_dispatch conv h hroom hgot hlast)
  rw [dispatchFrame_orders, Outcome.map_map] at horders
  exact horders

/-- A read that completes no frame changes nothing but the buffer. -/
theorem readStep_waits (conv : Conversions) {d : DiffLogic n} (h : d.InWork) {chunk : List UInt8}
    (hroom : d.mOffset + chunk.length ≤ BUFFER_SIZE) {ws : List WireFrame}
    (hp : d.pending ++ chunk <+: stream ws)
    (hno : ∀ w ∈ ws.head?, ¬ w.Recognised (d.pending ++ chunk).length) :
    (d.readStep conv chunk).map view = .returned d.view := by
  rcases receive_leaves h.valid hroom with ⟨d₁, he, hl, -, -⟩
  have hstate : d₁.mState = .inWork := hl.mState.trans h.mState
  have hlength := hl.valid.length_pending
  have hspec := frameStep_spec conv hl.valid (hl.pending ▸ hp)
  rw [hl.pending] at hlength
  unfold readStep
  rw [he, Outcome.attempt_some, hstate, if_neg (by decide)]
  rcases hspec with ⟨hf, -⟩ | ⟨w, ws', rest, hws, hr, -, -⟩
  · rw [hf, Outcome.map, receive_view he]
  · rw [← hlength] at hr
    exact absurd hr (hno w (by rw [hws]; rfl))

/-! ## A call -/

/-- Every read brings something and fits the room it is offered. -/
def Fits (conv : Conversions) : DiffLogic n → List (List UInt8) → Prop
  | _, [] => True
  | d, chunk :: chunks => chunk ≠ [] ∧ d.mOffset + chunk.length ≤ BUFFER_SIZE ∧
      ∀ d', d.readStep conv chunk = .returned d' → Fits conv d' chunks

theorem Fits.ne_nil {d : DiffLogic n} {chunks : List (List UInt8)} (h : d.Fits conv chunks)
    {d' : DiffLogic n} (hcall : d.onRead conv chunks = .returned d') :
    ∀ chunk ∈ chunks, chunk ≠ [] := by
  induction chunks generalizing d with
  | nil => exact nofun
  | cons chunk chunks ih =>
      rw [onRead_cons conv d h.1] at hcall
      rcases Outcome.andThen_eq_returned_iff.mp hcall with ⟨d₁, hstep, hrest⟩
      exact List.forall_mem_cons.mpr ⟨h.1, ih (h.2.2 d₁ hstep) hrest⟩

theorem Fits.left {d : DiffLogic n} {chunks more : List (List UInt8)}
    (h : d.Fits conv (chunks ++ more)) : d.Fits conv chunks := by
  induction chunks generalizing d with
  | nil => trivial
  | cons c chunks ih => exact ⟨h.1, h.2.1, fun d' hstep ↦ ih (h.2.2 d' hstep)⟩

theorem Fits.last {d d' : DiffLogic n} {chunks : List (List UInt8)} {chunk : List UInt8}
    (h : d.Fits conv (chunks ++ [chunk])) (hcall : d.onRead conv chunks = .returned d') :
    chunk ≠ [] ∧ d'.mOffset + chunk.length ≤ BUFFER_SIZE := by
  induction chunks generalizing d with
  | nil =>
      cases hcall
      exact ⟨h.1, h.2.1⟩
  | cons c chunks ih =>
      rw [onRead_cons conv d h.1] at hcall
      rcases Outcome.andThen_eq_returned_iff.mp hcall with ⟨d₁, hstep, hrest⟩
      exact ih (h.2.2 d₁ hstep) hrest

theorem Fits.onRead_concat {d : DiffLogic n} {chunks : List (List UInt8)} {chunk : List UInt8}
    (h : d.Fits conv (chunks ++ [chunk])) :
    d.onRead conv (chunks ++ [chunk]) =
      (d.onRead conv chunks).andThen fun d ↦ d.readStep conv chunk := by
  induction chunks generalizing d with
  | nil =>
      rw [List.nil_append, onRead_cons conv d h.1, onRead_nil, Outcome.andThen_returned]
      exact Outcome.andThen_returned_right _
  | cons c chunks ih =>
      rw [List.cons_append, onRead_cons conv d h.1, onRead_cons conv d h.1, Outcome.andThen_assoc]
      cases hstep : d.readStep conv c with
      | returned d₁ => exact ih (h.2.2 d₁ hstep)
      | threw what d₁ => rfl
      | aborted d₁ => rfl
      | undefined => rfl

/-- A frame that throws or aborts is the last one. -/
theorem dispatch_take_of_stopped {ws : List Dealt} {k k' : Nat} (hle : k ≤ k')
    {v : Orders n × List OutputFrame} (hstop : ∀ v', dispatch (ws.take k) v ≠ .returned v') :
    dispatch (ws.take k') v = dispatch (ws.take k) v := by
  have htake : ws.take k' = ws.take k ++ (ws.take k').drop k := by
    conv_lhs => rw [← List.take_append_drop k (ws.take k'), List.take_take, Nat.min_eq_left hle]
  rw [htake, dispatch_append]
  cases hd : dispatch (ws.take k) v with
  | returned v' => exact absurd hd (hstop v')
  | threw what v' => rfl
  | aborted v' => rfl
  | undefined => rfl

-- The frame that a read completes, if there is one.
theorem recognised_at {ws : List WireFrame} {k : Nat} {bytes : List UInt8}
    (hp : bytes <+: stream (ws.drop k)) :
    (recognisedCount ws (stream (ws.take k) ++ bytes).length ≤ k ∧
        ∀ w ∈ (ws.drop k).head?, ¬ w.Recognised bytes.length) ∨
      k < recognisedCount ws (stream (ws.take k) ++ bytes).length ∧
        ∃ w ws' rest, ws.drop k = w :: ws' ∧ bytes = w.bytes ++ rest ∧
          ¬ (w.Bare ∧ rest = []) := by
  have hiff := lt_recognisedCount_iff ws k bytes
  by_cases hlt : k < recognisedCount ws (stream (ws.take k) ++ bytes).length
  · right
    rcases hiff.mp hlt with ⟨w, hw, hrecognised⟩
    cases hws : ws.drop k with
    | nil => rw [hws] at hw; cases hw
    | cons v ws' =>
        rw [hws] at hw hp
        cases hw
        have hfront : w.bytes <+: bytes :=
          List.prefix_of_prefix_length_le (List.prefix_append _ _) hp hrecognised.1
        rcases hfront with ⟨rest, hrest⟩
        refine ⟨hlt, w, ws', rest, rfl, hrest.symm, fun hb ↦ hrecognised.2 ⟨hb.1, ?_⟩⟩
        rw [← hrest, hb.2, List.append_nil]
  · left
    exact ⟨Nat.le_of_not_lt hlt, fun w hw hr ↦ hlt (hiff.mpr ⟨w, hw, hr⟩)⟩

/-- A call deals with the frames it serves, one after the other. -/
theorem onRead_dispatch {d : DiffLogic n} (h : d.InWork) {ws : List WireFrame}
    {chunks : List (List UInt8)} (hfits : d.Fits conv chunks)
    (hp : d.pending ++ chunks.flatten <+: stream ws) :
    (d.onRead conv chunks).map view =
      dispatch ((ws.map (Dealt.of conv)).take (d.servedFrames ws chunks)) d.view := by
  induction chunks using List.reverseRecOn with
  | nil => rfl
  | append_singleton chunks chunk ih =>
      have hflatten : d.pending ++ (chunks ++ [chunk]).flatten =
          d.pending ++ chunks.flatten ++ chunk := by
        rw [List.flatten_append, List.flatten_singleton, List.append_assoc]
      rw [hflatten] at hp
      have hbefore := ih hfits.left ((List.prefix_append _ _).trans hp)
      have hle := servedFrames_le_next h.valid ws chunks chunk
      have hserved := servedFrames_concat d ws chunks chunk
      rw [hfits.onRead_concat]
      -- after an exception nothing more is served
      have hstopped (hstop : ∀ d', d.onRead conv chunks ≠ .returned d') :
          dispatch ((ws.map (Dealt.of conv)).take (d.servedFrames ws (chunks ++ [chunk]))) d.view =
            (d.onRead conv chunks).map view := by
        rw [hbefore]
        apply dispatch_take_of_stopped (by omega)
        intro v' hv
        rw [← hbefore] at hv
        cases hcall : d.onRead conv chunks with
        | returned d' => exact hstop d' hcall
        | threw what d' => rw [hcall] at hv; cases hv
        | aborted d' => rw [hcall] at hv; cases hv
        | undefined => rw [hcall] at hv; cases hv
      cases hcall : d.onRead conv chunks with
      | threw what d₁ => exact (hcall ▸ hstopped fun d' hd ↦ by rw [hcall] at hd; cases hd).symm
      | aborted d₁ => exact (hcall ▸ hstopped fun d' hd ↦ by rw [hcall] at hd; cases hd).symm
      | undefined => exact (hcall ▸ hstopped fun d' hd ↦ by rw [hcall] at hd; cases hd).symm
      | returned d₁ =>
          rw [hcall] at hbefore
          have hgone := onRead_served h (hfits.left.ne_nil hcall)
            ((List.prefix_append _ _).trans hp) hcall
          have hroom := (hfits.last hcall).2
          have hbytes : d.pending ++ chunks.flatten ++ chunk =
              stream (ws.take (d.servedFrames ws chunks)) ++ (d₁.pending ++ chunk) := by
            rw [hgone.2, List.append_assoc]
          rw [hbytes] at hp
          have hleft := prefix_stream_drop hp
          have hcount : d.got (chunks ++ [chunk]) (chunks ++ [chunk]).length =
              (stream (ws.take (d.servedFrames ws chunks)) ++ (d₁.pending ++ chunk)).length := by
            rw [got_length h.valid, hflatten, hbytes]
          rw [hcount] at hle hserved
          rw [Outcome.andThen_returned]
          -- the last read completes the next frame or waits
          rcases recognised_at hleft with ⟨hge, hno⟩ | ⟨hlt, w, ws', rest, hws, hgot, hlast⟩
          · have hsame : d.servedFrames ws (chunks ++ [chunk]) = d.servedFrames ws chunks := by
              omega
            rw [hsame, ← hbefore]
            exact readStep_waits conv hgone.1 hroom hleft hno
          · have hnext : d.servedFrames ws (chunks ++ [chunk]) = d.servedFrames ws chunks + 1 := by
              omega
            have htake : (ws.map (Dealt.of conv)).take (d.servedFrames ws chunks + 1) =
                (ws.map (Dealt.of conv)).take (d.servedFrames ws chunks) ++ [Dealt.of conv w] := by
              rw [List.take_add, ← List.map_drop, hws]
              rfl
            rw [hnext, htake, dispatch_append, ← hbefore]
            show _ = dispatch [Dealt.of conv w] d₁.view
            rw [dispatch_singleton]
            exact readStep_dispatch conv hgone.1 hroom hgot hlast

/-- A call that serves one frame queues its orders. -/
theorem onRead_orders (conv : Conversions) {d : DiffLogic n} (h : d.InWork)
    {chunks : List (List UInt8)} (hfits : d.Fits conv chunks) {w : WireFrame} {ws : List WireFrame}
    (hstream : d.pending ++ chunks.flatten <+: stream (w :: ws))
    (hserved : d.servedFrames (w :: ws) chunks = 1) :
    (d.onRead conv chunks).map mOrders =
      d.mOrders.storeThen (payloadOrders conv w.plain).1 (payloadOrders conv w.plain).2 := by
  have hcall := onRead_dispatch h hfits hstream
  have hone : ((w :: ws).map (Dealt.of conv)).take 1 = [Dealt.of conv w] := rfl
  rw [hserved, hone, dispatch_singleton] at hcall
  have horders := congrArg (Outcome.map Prod.fst) hcall
  rw [dispatchFrame_orders, Outcome.map_map] at horders
  exact horders

end DiffLogic

end Tob
