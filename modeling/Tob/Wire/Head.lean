import Tob.Library.Bytes
import Tob.Library.Search

/-!
# Heads

The requests of the two clients, and the head of a response: everything up to the first CRLFCRLF.
-/

namespace Tob

def HTTP_DELIMITER : List UInt8 := [13, 10, 13, 10]

theorem delimiter_ne_zero : ∀ b ∈ HTTP_DELIMITER, b ≠ 0 := by simp [HTTP_DELIMITER]

theorem delimiter_ne_nil : HTTP_DELIMITER ≠ [] := List.cons_ne_nil _ _

/-! ## Requests -/

/-- The two parts of a URL that a request has. -/
structure Url where
  url : String
  host : String
  deriving DecidableEq, Repr

/-- The request of `write_handshake`. -/
def upgradeRequest (url : Url) : List UInt8 :=
  ascii ("GET " ++ url.url ++ " HTTP/1.1\r\n" ++
    "Host: " ++ url.host ++ "\r\n" ++
    "Origin: " ++ url.host ++ "\r\n" ++
    "Upgrade: websocket\r\n" ++
    "Connection: Upgrade\r\n" ++
    "Sec-WebSocket-Version: 13\r\n" ++
    "Sec-WebSocket-Key: dGhlIHNhbXBsZSBub25jZQ==\r\n\r\n")

/-- `m_request` of `ReceiveOrderBookLogic`. -/
def snapshotRequest (url : Url) : List UInt8 :=
  ascii ("GET " ++ url.url ++ " HTTP/1.1\r\n" ++ "Host: " ++ url.host ++ "\r\n\r\n")

/-! ## Responses -/

/-- A head without a NUL byte; the delimiter behind it is the first one. -/
structure Head (head : List UInt8) : Prop where
  text : ∀ b ∈ head, b ≠ 0
  first : ∀ i < head.length, ¬ OccursAt HTTP_DELIMITER (head ++ HTTP_DELIMITER) i

theorem Head.of_strstr {head : List UInt8}
    (h : strstr HTTP_DELIMITER (head ++ HTTP_DELIMITER) = .found head.length) : Head head := by
  have hfirst := first_of_strstr h
  rw [List.take_left] at hfirst
  exact ⟨hfirst.2, hfirst.1⟩

theorem Head.not_occursAt {head received rest stale : List UInt8} (h : Head head)
    (hp : received <+: head ++ HTTP_DELIMITER ++ rest) {i : Nat} (hi : i < head.length)
    (hend : i + 4 ≤ received.length) : ¬ OccursAt HTTP_DELIMITER (received ++ stale) i := by
  intro hat
  have hreceived : OccursAt HTTP_DELIMITER received i := hat.of_append hend
  rcases hp with ⟨more, hmore⟩
  have hall := hreceived.append (by omega) more
  rw [hmore] at hall
  apply h.first i hi
  apply hall.of_append
  rw [List.length_append]
  show i + 4 ≤ head.length + 4
  omega

theorem prefix_of_head_le {head received rest : List UInt8}
    (hp : received <+: head ++ HTTP_DELIMITER ++ rest) (hle : head.length + 4 ≤ received.length) :
    head ++ HTTP_DELIMITER <+: received := by
  apply List.prefix_of_prefix_length_le (List.prefix_append _ rest) hp
  rw [List.length_append]
  exact hle

-- The whole head is there, and the delimiter is found behind it.
theorem Head.strstr {head received rest stale : List UInt8} (h : Head head)
    (hp : received <+: head ++ HTTP_DELIMITER ++ rest)
    (hle : head.length + 4 ≤ received.length) :
    Tob.strstr HTTP_DELIMITER (received ++ stale) = .found head.length := by
  rcases prefix_of_head_le hp hle with ⟨behind, hbehind⟩
  apply strstr_eq_found
  · rw [List.length_append]
    omega
  · show HTTP_DELIMITER <+: _
    rw [← hbehind, List.append_assoc, List.append_assoc, List.drop_left]
    exact List.prefix_append _ _
  · exact fun i hi ↦ h.not_occursAt hp hi (by omega)
  · rw [← hbehind, List.append_assoc, List.append_assoc, List.take_left]
    exact h.text

-- A part of the head and its delimiter has no NUL byte, and no delimiter while it is not all there.
theorem Head.no_zero {head received rest : List UInt8} (h : Head head)
    (hp : received <+: head ++ HTTP_DELIMITER ++ rest)
    (hlt : received.length ≤ head.length + 4) : ∀ b ∈ received, b ≠ 0 := by
  have hfront : received <+: head ++ HTTP_DELIMITER := by
    apply List.prefix_of_prefix_length_le hp (List.prefix_append _ _)
    rw [List.length_append]
    exact hlt
  intro b hb
  rcases List.mem_append.mp (hfront.subset hb) with hb | hb
  · exact h.text b hb
  · exact delimiter_ne_zero b hb

theorem Head.no_delimiter {head received rest : List UInt8} (h : Head head)
    (hp : received <+: head ++ HTTP_DELIMITER ++ rest) (hlt : received.length < head.length + 4)
    (i : Nat) (hi : i + HTTP_DELIMITER.length ≤ received.length) :
    ¬ OccursAt HTTP_DELIMITER received i := by
  have hfour : HTTP_DELIMITER.length = 4 := rfl
  have hnot : ¬ OccursAt HTTP_DELIMITER (received ++ []) i :=
    h.not_occursAt hp (by omega) (by omega)
  rw [List.append_nil] at hnot
  exact hnot

theorem Head.strstr_incomplete {head received rest more : List UInt8} (h : Head head)
    (hp : received <+: head ++ HTTP_DELIMITER ++ rest) (hlt : received.length < head.length + 4) :
    Tob.strstr HTTP_DELIMITER (received ++ 0 :: more) = .ended :=
  strstr_eq_ended delimiter_ne_zero delimiter_ne_nil (h.no_zero hp (le_of_lt hlt))
    (h.no_delimiter hp hlt)

theorem Head.strstr_full {head received rest : List UInt8} (h : Head head)
    (hp : received <+: head ++ HTTP_DELIMITER ++ rest) (hlt : received.length < head.length + 4) :
    Tob.strstr HTTP_DELIMITER received = .overrun :=
  strstr_eq_overrun delimiter_ne_nil (h.no_zero hp (le_of_lt hlt)) (h.no_delimiter hp hlt)

end Tob
