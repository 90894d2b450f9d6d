import Tob.Diff.AllOrNothing
import Tob.Diff.Dealt
import Tob.Diff.Session

/-!
# Control frames

Pings, pongs and the closing of the connection go the same way through `on_read` as the data does:
they should leave the order queue alone, and the answer to a ping should bring its payload back.
-/

namespace Tob

/-- `PING`, `PONG` and `CONNECTION_CLOSE`. -/
def WireFrame.Control (w : WireFrame) : Prop :=
  w.opcode = Frame.PING ∨ w.opcode = Frame.PONG ∨ w.opcode = Frame.CONNECTION_CLOSE

instance (w : WireFrame) : Decidable w.Control := inferInstanceAs (Decidable (_ ∨ _))

namespace DiffLogic

open WireFrame

variable {n : Nat}

def pings (ws : List Dealt) : List Dealt := ws.filter fun w ↦ w.frame.opcode = Frame.PING

def withoutControl (ws : List Dealt) : List Dealt := ws.filter fun w ↦ ¬ w.frame.Control

/-- The pong that brings the payload of a ping back. -/
def pongFor (w : Dealt) : OutputFrame := entry Frame.PONG.toUInt64 w.frame.plain 0

/-- The pong has the payload of the ping only if there is none. -/
theorem pongFor_eq_iff (w : Dealt) :
    pongFor w = entry Frame.PONG.toUInt64 [] 0 ↔ w.frame.plain = [] := by
  apply Iff.intro
  · intro h
    have hsize := congrArg OutputFrame.size h
    have hlength : (pongFor w).size = 2 + (Frame.lengthBytes w.frame.plain.length).length +
        w.frame.plain.length := by
      show (_ ++ _ ++ _ ++ _ : List UInt8).length = _
      rw [List.length_append, List.length_append, List.length_append, Frame.length_body]
      rfl
    have hempty : (entry Frame.PONG.toUInt64 [] 0).size = 2 := rfl
    rw [hlength, hempty] at hsize
    exact List.length_eq_zero_iff.mp (by omega)
  · intro h
    rw [pongFor, h]

/-! ## One frame -/

/-- The frame is dealt with to its end where there is so much room in the pool. -/
def Returns (w : Dealt) (room : Nat) : Prop := w.ending = .returns ∧ w.orders.length ≤ room

instance (w : Dealt) (room : Nat) : Decidable (Returns w room) :=
  inferInstanceAs (Decidable (_ ∧ _))

/-- How much room the orders have left. -/
def room (v : Orders n × List OutputFrame) : Nat := n - v.1.mOrders.length

theorem dispatchFrame_returns {w : Dealt} {v : Orders n × List OutputFrame}
    (h : Returns w (room v)) :
    dispatchFrame w v = .returned (⟨v.1.mOrders ++ w.orders⟩, v.2 ++ answers w.frame) :=
  (dispatchFrame_returned_iff w v _).mpr ⟨h.1, h.2, rfl⟩

/-- A frame that is not dealt with to its end stops the call. -/
theorem dispatch_of_not_returns {w : Dealt} {v : Orders n × List OutputFrame}
    (h : ¬ Returns w (room v)) (ws : List Dealt) :
    dispatch (w :: ws) v = dispatchFrame w v := by
  rw [dispatch]
  cases hw : dispatchFrame w v with
  | returned v' =>
      have hreturned := (dispatchFrame_returned_iff w v v').mp hw
      exact absurd ⟨hreturned.1, hreturned.2.1⟩ h
  | threw what v' => rfl
  | aborted v' => rfl
  | undefined => rfl

/-! ## A list of frames -/

/-- The frames whose turn would come if control frames did nothing: up to the first data frame that
is not dealt with to its end. -/
def due : List Dealt → Nat → List Dealt
  | [], _ => []
  | w :: ws, room =>
      w ::
        if w.frame.Control then due ws room
        else if Returns w room then due ws (room - w.orders.length)
        else []

/-- After these frames the output queue has got a pong for every ping whose turn was due, with its
payload, and the order queue what it would have got without the control frames. -/
def OnlyAnswers (ws : List Dealt) (v v' : Orders n × List OutputFrame) : Prop :=
  v'.2 = v.2 ++ (pings (due ws (room v))).map pongFor ∧
    (dispatch (withoutControl ws) v).state?.map Prod.fst = some v'.1

/-- Where a call stops its control frames have only been answered. -/
def Answered (ws : List Dealt) (v : Orders n × List OutputFrame) : Prop :=
  ∃ v', (dispatch ws v).state? = some v' ∧ OnlyAnswers ws v v'

/-- No ping is due, and no data frame that is lists an order for which there is room. -/
def Mute (ws : List Dealt) (room : Nat) : Prop :=
  pings (due ws room) = [] ∧
    (room = 0 ∨ (withoutControl (due ws room)).flatMap Dealt.orders = [])

/-- No ping has a payload, no control frame lists an order for which there is room, and behind one
that throws or aborts there is nothing to be seen. -/
def Harmless : List Dealt → Nat → Prop
  | [], _ => True
  | w :: ws, room =>
      if w.frame.Control then
        ((w.frame.opcode = Frame.PING → w.frame.plain = []) ∧ (w.orders = [] ∨ room = 0)) ∧
          if Returns w room then Harmless ws room else Mute ws room
      else Returns w room → Harmless ws (room - w.orders.length)

instance (ws : List Dealt) (room : Nat) : Decidable (Mute ws room) :=
  inferInstanceAs (Decidable (_ ∧ _))

instance decidableHarmless : (ws : List Dealt) → (room : Nat) → Decidable (Harmless ws room)
  | [], _ => .isTrue trivial
  | w :: ws, room =>
      have := decidableHarmless ws room
      have := decidableHarmless ws (room - w.orders.length)
      inferInstanceAs (Decidable (if w.frame.Control then
        ((w.frame.opcode = Frame.PING → w.frame.plain = []) ∧ (w.orders = [] ∨ room = 0)) ∧
          if Returns w room then Harmless ws room else Mute ws room
      else Returns w room → Harmless ws (room - w.orders.length)))

theorem due_prefix {before ws : List Dealt} (h : before <+: ws) (room : Nat) :
    due before room <+: due ws room := by
  induction before generalizing ws room with
  | nil => exact List.nil_prefix
  | cons w before ih =>
      cases ws with
      | nil => exact absurd (List.prefix_nil.mp h) (List.cons_ne_nil w before)
      | cons u ws =>
          rw [List.cons_prefix_cons] at h
          rw [due, due, h.1, List.cons_prefix_cons]
          refine ⟨rfl, ?_⟩
          by_cases hcontrol : u.frame.Control
          · rw [if_pos hcontrol, if_pos hcontrol]
            exact ih h.2 _
          · rw [if_neg hcontrol, if_neg hcontrol]
            by_cases hreturns : Returns u room
            · rw [if_pos hreturns, if_pos hreturns]
              exact ih h.2 _
            · rw [if_neg hreturns]
              exact List.nil_prefix

/-- What is in the output queue does not matter to the orders. -/
theorem dispatch_orders (ws : List Dealt) (orders : Orders n) (queue queue' : List OutputFrame) :
    (dispatch ws (orders, queue)).state?.map Prod.fst =
      (dispatch ws (orders, queue')).state?.map Prod.fst := by
  induction ws generalizing orders queue queue' with
  | nil => rfl
  | cons w ws ih =>
      by_cases hreturns : Returns w (n - orders.mOrders.length)
      · have hw := dispatchFrame_returns (v := (orders, queue)) hreturns
        have hw' := dispatchFrame_returns (v := (orders, queue')) hreturns
        rw [dispatch, dispatch, hw, hw', Outcome.andThen_returned, Outcome.andThen_returned]
        exact ih _ _ _
      · have hw := dispatch_of_not_returns (v := (orders, queue)) hreturns ws
        have hw' := dispatch_of_not_returns (v := (orders, queue')) hreturns ws
        rw [hw, hw', dispatchFrame_state?, dispatchFrame_state?]
        rfl

theorem room_append (orders : Orders n) (batch : List Order) (queue : List OutputFrame) :
    room ((⟨orders.mOrders ++ batch⟩ : Orders n), queue) =
      n - orders.mOrders.length - batch.length := by
  unfold room
  rw [List.length_append]
  omega

/-! ## One more frame in front -/

theorem withoutControl_cons_of_control {w : Dealt} (h : w.frame.Control) (ws : List Dealt) :
    withoutControl (w :: ws) = withoutControl ws := by
  rw [withoutControl, List.filter_cons_of_neg (by simpa using h)]
  rfl

theorem withoutControl_cons_of_data {w : Dealt} (h : ¬ w.frame.Control) (ws : List Dealt) :
    withoutControl (w :: ws) = w :: withoutControl ws := by
  rw [withoutControl, List.filter_cons_of_pos (by simpa using h)]
  rfl

theorem pings_cons_of_data {w : Dealt} (h : ¬ w.frame.Control) (ws : List Dealt) :
    pings (w :: ws) = pings ws := by
  have hping : w.frame.opcode ≠ Frame.PING := fun hping ↦ h (.inl hping)
  rw [pings, List.filter_cons_of_neg (by simpa using hping)]
  rfl

/-- Without control frames the orders of the frames that are due are queued, as far as there is
room. -/
theorem dispatch_withoutControl (ws : List Dealt) (v : Orders n × List OutputFrame) :
    (dispatch (withoutControl ws) v).state?.map Prod.fst =
      some ⟨v.1.mOrders ++
        ((withoutControl (due ws (room v))).flatMap Dealt.orders).take (room v)⟩ := by
  induction ws generalizing v with
  | nil =>
      show some v.1 = some _
      rw [due, withoutControl, List.filter_nil, List.flatMap_nil, List.take_nil, List.append_nil]
  | cons w ws ih =>
      by_cases hcontrol : w.frame.Control
      · rw [due, if_pos hcontrol, withoutControl_cons_of_control hcontrol,
          withoutControl_cons_of_control hcontrol]
        exact ih v
      · rw [due, if_neg hcontrol, withoutControl_cons_of_data hcontrol,
          withoutControl_cons_of_data hcontrol, List.flatMap_cons]
        by_cases hreturns : Returns w (room v)
        · rw [if_pos hreturns, dispatch, dispatchFrame_returns hreturns, Outcome.andThen_returned,
            ih, room_append, List.append_assoc, List.take_append,
            List.take_of_length_le hreturns.2]
          rfl
        · rw [if_neg hreturns, dispatch_of_not_returns hreturns, dispatchFrame_state?]
          have hnone : withoutControl [] = [] := rfl
          rw [hnone, List.flatMap_nil, List.append_nil]
          rfl

theorem mute_iff (ws : List Dealt) (v : Orders n × List OutputFrame) :
    Mute ws (room v) ↔ ∀ before, before <+: ws →
      pings (due before (room v)) = [] ∧
        (dispatch (withoutControl before) v).state?.map Prod.fst = some v.1 := by
  have hstays (before : List Dealt) :
      (dispatch (withoutControl before) v).state?.map Prod.fst = some v.1 ↔
        room v = 0 ∨ (withoutControl (due before (room v))).flatMap Dealt.orders = [] := by
    rw [dispatch_withoutControl, Option.some_inj, ← List.take_eq_nil_iff]
    constructor
    · exact fun h ↦ List.self_eq_append_right.mp (congrArg Orders.mOrders h).symm
    · intro h
      rw [h, List.append_nil]
  constructor
  · intro h before hbefore
    rw [hstays]
    have hfront := due_prefix hbefore (room v)
    constructor
    · exact List.prefix_nil.mp (h.1 ▸ hfront.filter _)
    · apply h.2.imp_right
      intro hnone
      exact List.prefix_nil.mp (hnone ▸ (hfront.filter _).flatMap _)
  · intro h
    have hall := h ws (List.prefix_refl ws)
    rw [hstays] at hall
    exact hall

theorem answered_nil (v : Orders n × List OutputFrame) : Answered [] v :=
  ⟨v, rfl, (List.append_nil _).symm, rfl⟩

/-- A control frame alone is only answered if it is no ping with a payload and stores nothing. -/
theorem answered_singleton_iff {w : Dealt} (hcontrol : w.frame.Control)
    (v : Orders n × List OutputFrame) :
    Answered [w] v ↔
      (w.frame.opcode = Frame.PING → w.frame.plain = []) ∧ (w.orders = [] ∨ room v = 0) := by
  have hdue : due [w] (room v) = [w] := by
    rw [due, if_pos hcontrol, due]
  have hnone : withoutControl [] = [] := rfl
  unfold Answered OnlyAnswers
  simp only [dispatch_singleton, dispatchFrame_state?, Option.some_inj, exists_eq_left',
    withoutControl_cons_of_control hcontrol, hnone, hdue, List.append_cancel_left_eq]
  apply and_congr
  · rw [answers, pings]
    by_cases hping : w.frame.opcode = Frame.PING
    · rw [if_pos hping, List.filter_cons_of_pos (by simpa using hping), List.filter_nil,
        List.map_singleton, List.singleton_inj, eq_comm, pongFor_eq_iff]
      exact ⟨fun hplain _ ↦ hplain, fun hplain ↦ hplain hping⟩
    · rw [if_neg hping, List.filter_cons_of_neg (by simpa using hping)]
      exact ⟨fun _ hp ↦ absurd hp hping, fun _ ↦ rfl⟩
  · show some v.1 = some _ ↔ _
    rw [Option.some_inj, or_comm]
    show _ ↔ n - v.1.mOrders.length = 0 ∨ _
    rw [← List.take_eq_nil_iff]
    constructor
    · intro hsame
      exact List.self_eq_append_right.mp (congrArg Orders.mOrders hsame)
    · intro hnone
      rw [hnone, List.append_nil]

/-- Behind a control frame it is its pong that matters. -/
theorem onlyAnswers_control_iff {w : Dealt} (hcontrol : w.frame.Control)
    (hplain : w.frame.opcode = Frame.PING → w.frame.plain = []) (ws : List Dealt)
    (v v' : Orders n × List OutputFrame) :
    OnlyAnswers (w :: ws) v v' ↔ OnlyAnswers ws (v.1, v.2 ++ answers w.frame) v' := by
  have hpongs : (pings (due (w :: ws) (room v))).map pongFor =
      answers w.frame ++ (pings (due ws (room v))).map pongFor := by
    rw [due, if_pos hcontrol, pings, answers]
    by_cases hping : w.frame.opcode = Frame.PING
    · rw [if_pos hping, List.filter_cons_of_pos (by simpa using hping), List.map_cons,
        (pongFor_eq_iff w).mpr (hplain hping)]
      rfl
    · rw [if_neg hping, List.filter_cons_of_neg (by simpa using hping)]
      rfl
  have horders := dispatch_orders (withoutControl ws) v.1 v.2 (v.2 ++ answers w.frame)
  unfold OnlyAnswers
  rw [withoutControl_cons_of_control hcontrol, hpongs, ← List.append_assoc]
  show (_ ∧ (dispatch (withoutControl ws) (v.1, v.2)).state?.map Prod.fst = _) ↔ _
  rw [horders]
  rfl

/-- A control frame that returns and is only answered hands the orders on as they were. -/
theorem answered_control_iff {w : Dealt} (hcontrol : w.frame.Control)
    {v : Orders n × List OutputFrame} (halone : Answered [w] v)
    (hreturns : Returns w (room v)) (ws : List Dealt) :
    Answered (w :: ws) v ↔ Answered ws (v.1, v.2 ++ answers w.frame) := by
  obtain ⟨hplain, hnone⟩ := (answered_singleton_iff hcontrol v).mp halone
  have hlisted : w.orders = [] := by
    rcases hnone with hnone | hfull
    · exact hnone
    · have hfits := hreturns.2
      exact List.eq_nil_of_length_eq_zero (by omega)
  have hw := dispatchFrame_returns hreturns
  rw [hlisted, List.append_nil] at hw
  unfold Answered
  simp only [dispatch, hw, Outcome.andThen_returned, onlyAnswers_control_iff hcontrol hplain]

/-- Behind a control frame that throws or aborts nothing may be due. -/
theorem answered_control_stops_iff {w : Dealt} (hcontrol : w.frame.Control)
    {v : Orders n × List OutputFrame} (halone : Answered [w] v)
    (hstops : ¬ Returns w (room v)) (ws : List Dealt) :
    Answered (w :: ws) v ↔ pings (due ws (room v)) = [] ∧
      (dispatch (withoutControl ws) (v.1, v.2 ++ answers w.frame)).state?.map Prod.fst =
        some v.1 := by
  obtain ⟨hplain, hnone⟩ := (answered_singleton_iff hcontrol v).mp halone
  have htake : w.orders.take (n - v.1.mOrders.length) = [] :=
    List.take_eq_nil_iff.mpr hnone.symm
  unfold Answered
  simp only [dispatch_of_not_returns hstops, dispatchFrame_state?, htake, List.append_nil,
    Option.some_inj, exists_eq_left', onlyAnswers_control_iff hcontrol hplain]
  unfold OnlyAnswers
  rw [List.self_eq_append_right, List.map_eq_nil_iff]
  rfl

/-- A data frame that returns is stored with and without the control frames. -/
theorem answered_data_iff {w : Dealt} (hdata : ¬ w.frame.Control) {v : Orders n × List OutputFrame}
    (hreturns : Returns w (room v)) (ws : List Dealt) :
    Answered (w :: ws) v ↔
      Answered ws ((⟨v.1.mOrders ++ w.orders⟩ : Orders n), v.2 ++ answers w.frame) := by
  have hw := dispatchFrame_returns hreturns
  have hroom (queue : List OutputFrame) := room_append v.1 w.orders queue
  have hnone : answers w.frame = [] := if_neg fun hping ↦ hdata (.inl hping)
  have hpings : pings (due (w :: ws) (room v)) =
      pings (due ws (n - v.1.mOrders.length - w.orders.length)) := by
    rw [due, if_neg hdata, if_pos hreturns, pings_cons_of_data hdata]
    rfl
  unfold Answered OnlyAnswers
  simp only [withoutControl_cons_of_data hdata, dispatch, hw, Outcome.andThen_returned, hpings,
    hroom, hnone, List.append_nil]

theorem answered_data_stops {w : Dealt} (hdata : ¬ w.frame.Control)
    {v : Orders n × List OutputFrame} (hstops : ¬ Returns w (room v)) (ws : List Dealt) :
    Answered (w :: ws) v := by
  have hpings : pings (due (w :: ws) (room v)) = [] := by
    rw [due, if_neg hdata, if_neg hstops, pings_cons_of_data hdata]
    rfl
  have hnone : answers w.frame = [] := if_neg fun hping ↦ hdata (.inl hping)
  refine ⟨_, by rw [dispatch_of_not_returns hstops, dispatchFrame_state?], ?_, ?_⟩
  · rw [hpings, hnone]
    rfl
  · rw [withoutControl_cons_of_data hdata, dispatch_of_not_returns hstops, dispatchFrame_state?]
    rfl

/-! ## All along a list -/

/-- A front is empty or starts with the first frame. -/
theorem fronts_cons_iff (w : Dealt) (ws : List Dealt) (v : Orders n × List OutputFrame) :
    (∀ before, before <+: w :: ws → Answered before v) ↔
      Answered [w] v ∧ ∀ before, before <+: ws → Answered (w :: before) v := by
  constructor
  · intro h
    exact ⟨h [w] (List.prefix_append [w] ws),
      fun before hbefore ↦ h _ (List.cons_prefix_cons.mpr ⟨rfl, hbefore⟩)⟩
  · intro h before hbefore
    cases before with
    | nil => exact answered_nil v
    | cons u before =>
        rw [List.cons_prefix_cons] at hbefore
        rw [hbefore.1]
        exact h.2 before hbefore.2

/-- Control frames are only answered all along a list exactly if they are harmless. -/
theorem answered_iff (ws : List Dealt) (v : Orders n × List OutputFrame) :
    (∀ before, before <+: ws → Answered before v) ↔ Harmless ws (room v) := by
  induction ws generalizing v with
  | nil =>
      refine iff_of_true (fun before hbefore ↦ ?_) trivial
      rw [List.prefix_nil.mp hbefore]
      exact answered_nil v
  | cons w ws ih =>
      rw [fronts_cons_iff, Harmless]
      by_cases hcontrol : w.frame.Control
      · rw [if_pos hcontrol, ← answered_singleton_iff hcontrol v]
        apply and_congr_right
        intro halone
        by_cases hreturns : Returns w (room v)
        · rw [if_pos hreturns]
          simp only [answered_control_iff hcontrol halone hreturns]
          exact ih (v.1, v.2 ++ answers w.frame)
        · rw [if_neg hreturns]
          simp only [answered_control_stops_iff hcontrol halone hreturns]
          exact (mute_iff ws (v.1, v.2 ++ answers w.frame)).symm
      · rw [if_neg hcontrol]
        by_cases hreturns : Returns w (room v)
        · have hroom := room_append v.1 w.orders (v.2 ++ answers w.frame)
          have halone : Answered [w] v :=
            (answered_data_iff hcontrol hreturns []).mpr (answered_nil _)
          rw [and_iff_right halone]
          simp only [answered_data_iff hcontrol hreturns, hreturns, true_imp_iff]
          show _ ↔ Harmless ws (n - v.1.mOrders.length - w.orders.length)
          rw [← hroom]
          exact ih _
        · refine iff_of_true ?_ fun h ↦ absurd h hreturns
          exact ⟨answered_data_stops hcontrol hreturns [],
            fun before _ ↦ answered_data_stops hcontrol hreturns before⟩

/-! ## A call -/

/-- After every read of a call the control frames completed so far have only been answered, with
their payloads, and everything else is as it would be without them, if and only if the control
frames are harmless. -/
theorem controlFrames_iff {parse : UInt8 → List UInt8 → Except String (Option Json)}
    {conv : Conversions} {d : DiffLogic n} (h : d.InWork) {ws : List WireFrame}
    {chunks : List (List UInt8)} (hfits : d.FitsBehind parse conv chunks)
    (hp : d.pending ++ chunks.flatten <+: stream ws) :
    (∀ s ≤ chunks.length, ∃ d', (d.onReadBehind parse conv (chunks.take s)).state? = some d' ∧
      OnlyAnswers (d.dealt parse conv ws (chunks.take s)) d.view d'.view) ↔
      Harmless (d.dealt parse conv ws chunks) (n - d.mOrders.mOrders.length) := by
  show _ ↔ Harmless (d.dealt parse conv ws chunks) (room d.view)
  rw [← answered_iff]
  -- each front of the reads is a call of its own
  have hread (s : Nat) : (d.onReadBehind parse conv (chunks.take s)).map view =
      dispatch (d.dealt parse conv ws (chunks.take s)) d.view := by
    apply onReadBehind_dispatch h
    · have hsplit : d.FitsBehind parse conv (chunks.take s ++ chunks.drop s) := by
        rw [List.take_append_drop]
        exact hfits
      exact hsplit.left
    · apply List.IsPrefix.trans _ hp
      rw [List.prefix_append_right_inj]
      exact (List.take_prefix s chunks).flatten
  constructor
  · intro hall before hbefore
    obtain ⟨s, hs, heq⟩ := prefix_dealtFrom_iff.mp hbefore
    obtain ⟨d', hd', hanswers⟩ := hall s hs
    change before = d.dealt parse conv ws (chunks.take s) at heq
    rw [heq, Answered, ← hread s]
    exact ⟨d'.view, Outcome.map_state?.mpr ⟨d', hd', rfl⟩, hanswers⟩
  · intro hall s hs
    obtain ⟨v', hv', hanswers⟩ := hall _ (prefix_dealtFrom_iff.mpr ⟨s, hs, rfl⟩)
    change (dispatch (d.dealt parse conv ws (chunks.take s)) d.view).state? = some v' at hv'
    rw [← hread s] at hv'
    obtain ⟨d', hd', heq⟩ := Outcome.map_state?.mp hv'
    rw [← heq] at hanswers
    exact ⟨d', hd', hanswers⟩

/-- A closing frame whose payload is no JSON. -/
def closeFrame : WireFrame := { textFrame with first := 0x88 }

def closeReads : List (List UInt8) := [closeFrame.bytes, textFrame.bytes]

theorem controlFrames_iff_example :
    ∃ d', (idle.onReadBehind closedBehind noJson closeReads).state? = some d' ∧
      OnlyAnswers (idle.dealt closedBehind noJson [closeFrame, textFrame] closeReads) idle.view
        d'.view := by
  have hfirst : idle.pending ++ closeFrame.bytes <+: stream [closeFrame] := by
    rw [idle_pending]
    exact List.prefix_refl _
  rcases readStepBehind_deals closedBehind noJson idle_inWork (by decide) hfirst (by decide) with
    ⟨rest, hgot, -, hspec⟩
  have hrest : rest = [] := by
    rw [idle_pending, List.nil_append] at hgot
    exact List.self_eq_append_right.mp hgot
  have hfits : idle.FitsBehind closedBehind noJson closeReads := by
    refine ⟨by decide, by decide, fun d' hd' ↦ ⟨by decide, ?_, fun _ _ ↦ trivial⟩⟩
    obtain ⟨hwork, hleft⟩ := hspec.2 d' hd'
    have hlength := hwork.valid.length_pending
    rw [hleft, hrest] at hlength
    rw [← hlength]
    decide
  have hp : idle.pending ++ closeReads.flatten <+: stream [closeFrame, textFrame] := by
    rw [idle_pending]
    exact List.prefix_refl _
  exact (controlFrames_iff idle_inWork hfits hp).mpr (by decide) 2 (le_refl 2)

/-- A pong with a message in it. -/
def pongFrame : WireFrame := { brokenFrame with first := 0x8a }

/-- `parse` where no payload ends with an opening bracket. -/
def brokenParse (_ : UInt8) (payload : List UInt8) : Except String (Option Json) :=
  brokenConv.parse payload

/-- The answer to a ping comes without the payload of the ping, and the orders in a pong are
queued. -/
theorem controlFrames_act :
    (∃ d', idle.onReadBehind closedBehind noJson [pingFrame.bytes] = .returned d' ∧
      d'.mOutputQueue = [⟨[0x8a, 0x00], 2, 0⟩] ∧ pingFrame.plain = [0x78] ∧
      ¬ OnlyAnswers (idle.dealt closedBehind noJson [pingFrame] [pingFrame.bytes]) idle.view
        d'.view) ∧
    ∃ d', idle.onReadBehind brokenParse brokenConv [pongFrame.bytes] = .threw "stod" d' ∧
      d'.mOrders.mOrders = [⟨Order.BUY, 5, 7000000, 2000000⟩] ∧
      ¬ OnlyAnswers (idle.dealt brokenParse brokenConv [pongFrame] [pongFrame.bytes]) idle.view
        d'.view := by
  have hping : idle.pending ++ [pingFrame.bytes].flatten <+: stream [pingFrame] := by
    rw [idle_pending]
    exact List.prefix_refl _
  have hpong : idle.pending ++ [pongFrame.bytes].flatten <+: stream [pongFrame] := by
    rw [idle_pending]
    exact List.prefix_refl _
  have hfits : idle.FitsBehind closedBehind noJson [pingFrame.bytes] :=
    ⟨by decide, by decide, fun _ _ ↦ trivial⟩
  have hfits' : idle.FitsBehind brokenParse brokenConv [pongFrame.bytes] :=
    ⟨by decide, by decide, fun _ _ ↦ trivial⟩
  have hreturns := onReadBehind_dispatch idle_inWork hfits hping
  have hthrows := onReadBehind_dispatch idle_inWork hfits' hpong
  have hrecognised : pongFrame.Recognised (idle.mOffset + pongFrame.bytes.length) := by decide
  have hdealt : idle.dealt brokenParse brokenConv [pongFrame] [pongFrame.bytes] =
      [⟨pongFrame, [⟨Order.BUY, 5, 7000000, 2000000⟩], .throws "stod"⟩] := by
    rw [dealt, dealtFrom_recognised hrecognised, dealtFrom_nil]
    exact congrArg (fun w ↦ [w]) (Dealt.of_eq brokenOrders)
  rw [hdealt] at hthrows ⊢
  rcases Outcome.map_eq_returned_iff.mp (hreturns.trans rfl) with ⟨d₁, hd₁, hview₁⟩
  rcases Outcome.map_eq_threw_iff.mp hthrows with ⟨d₂, hd₂, hview₂⟩
  apply And.intro
  · refine ⟨d₁, hd₁, congrArg Prod.snd hview₁, rfl, ?_⟩
    rw [hview₁]
    intro h
    exact absurd h.1 (by decide)
  · refine ⟨d₂, hd₂, congrArg (fun v ↦ v.1.mOrders) hview₂, ?_⟩
    rw [hview₂]
    intro h
    have horders := congrArg (Option.map Orders.mOrders) h.2
    exact absurd horders (by decide)

end DiffLogic

end Tob
