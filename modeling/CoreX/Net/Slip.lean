import Mathlib.Data.List.Basic
import CoreX.Base.Memory

/-!
# SLIP (`networking/lwip/netif/slipif.rs`)

`send` puts an `END` before and behind a packet and escapes the bytes inside that are `END` or `ESC`. `next_packet`
collects bytes up to an `END`. So the packets behind some noise come out as they were sent (`receives_sent`), if the
noise does not end in an escape.
-/

namespace CoreX.Slip

open List

def slipEnd : UInt8 := 0xC0
def slipEsc : UInt8 := 0xDB
def slipEscEnd : UInt8 := 0xDC
def slipEscEsc : UInt8 := 0xDD

def stuff (b : UInt8) : Bytes :=
  if b = slipEnd then [slipEsc, slipEscEnd] else if b = slipEsc then [slipEsc, slipEscEsc] else [b]

def send (packet : Bytes) : Bytes := slipEnd :: (packet.flatMap stuff ++ [slipEnd])

def unstuff (b : UInt8) : UInt8 := if b = slipEscEnd then slipEnd else if b = slipEscEsc then slipEsc else b

/-- What a call of `next_packet` comes to: it returns a packet, with bytes left to read and the buffer empty, or it
waits for a byte, which may be the one behind an escape. -/
inductive Outcome where
  | packet (packet input : Bytes)
  | waits (rxBuffer : Bytes) (escaped : Bool)

def nextPacket (rxBuffer : Bytes) (escaped : Bool) : Bytes → Outcome
  | [] => .waits rxBuffer escaped
  | byte :: input =>
    if escaped then nextPacket (rxBuffer ++ [unstuff byte]) false input
    else if byte = slipEnd then
      if rxBuffer = [] then nextPacket [] false input else .packet rxBuffer input
    else if byte = slipEsc then nextPacket rxBuffer true input
    else nextPacket (rxBuffer ++ [byte]) false input

/-- Calls of `next_packet` return the packets, and the last one waits for a byte that does not follow an escape. -/
inductive Receives : (rxBuffer input : Bytes) → List Bytes → Bytes → Prop where
  | waits {rx input rx' : Bytes} : nextPacket rx false input = .waits rx' false → Receives rx input [] rx'
  | packet {rx input p rest rx' : Bytes} {ps : List Bytes} :
    nextPacket rx false input = .packet p rest → Receives [] rest ps rx' → Receives rx input (p :: ps) rx'

variable {rx rx' rx'' g t : Bytes} {escaped : Bool} {ps qs : List Bytes}

theorem nextPacket_append (t : Bytes) : nextPacket rx escaped (g ++ t) = match nextPacket rx escaped g with
    | .packet p rest => .packet p (rest ++ t)
    | .waits rx' escaped => nextPacket rx' escaped t := by
  induction g generalizing rx escaped with
  | nil => rfl
  | cons byte g ih =>
    simp only [cons_append, nextPacket]
    split_ifs
    · exact ih
    · exact ih
    · rfl
    · exact ih
    · exact ih

theorem nextPacket_stuff (packet t : Bytes) :
    nextPacket rx false (packet.flatMap stuff ++ t) = nextPacket (rx ++ packet) false t := by
  induction packet generalizing rx with
  | nil => rw [flatMap_nil, nil_append, append_nil]
  | cons b packet ih =>
    have hone : ∀ t, nextPacket rx false (stuff b ++ t) = nextPacket (rx ++ [b]) false t := by
      intro t
      unfold stuff
      split_ifs with hend hesc
      · rw [hend]
        rfl
      · rw [hesc]
        rfl
      · rw [singleton_append, nextPacket, if_neg (by decide), if_neg hend, if_neg hesc]
    rw [flatMap_cons, append_assoc, hone, ih, append_assoc, singleton_append]

theorem Receives.congr (h : Receives rx t qs rx'') (hnext : nextPacket rx' false g = nextPacket rx false t) :
    Receives rx' g qs rx'' := by
  cases h with
  | waits hwaits => exact .waits (hnext.trans hwaits)
  | packet hpacket hrest => exact .packet (hnext.trans hpacket) hrest

theorem Receives.append (h : Receives rx g ps rx') (ht : Receives rx' t qs rx'') : Receives rx (g ++ t) (ps ++ qs) rx'' := by
  induction h with
  | waits hwaits => exact ht.congr (by rw [nextPacket_append, hwaits])
  | packet hpacket _ ih => exact .packet (by rw [nextPacket_append, hpacket]) (ih ht)

theorem receives_send (packets : List Bytes) :
    Receives [] (packets.flatMap send) (packets.filter (· ≠ [])) [] := by
  induction packets with
  | nil => exact .waits rfl
  | cons p packets ih =>
    have hsend : nextPacket [] false ((p :: packets).flatMap send) =
        nextPacket p false (slipEnd :: packets.flatMap send) := by
      rw [flatMap_cons, send, cons_append, append_assoc]
      exact nextPacket_stuff p _
    by_cases hp : p = []
    · subst hp
      exact ih.congr hsend
    · rw [filter_cons_of_pos (by simpa using hp)]
      exact .packet (hsend.trans (if_neg hp)) ih

/-- **Resynchronisation.** Behind noise that does not end in an escape, the packets that are not empty are received as
they were sent. Before them come the packets of the noise, and what is left of the noise in the buffer. -/
theorem receives_sent (h : Receives [] g ps rx) (packets : List Bytes) :
    ∃ own rx', Receives [] (g ++ packets.flatMap send) (own ++ packets.filter (· ≠ [])) rx' ∧
      (own = ps ∨ own = ps ++ [rx]) := by
  have hsend := receives_send packets
  by_cases hrx : rx = []
  · subst hrx
    exact ⟨ps, [], h.append hsend, .inl rfl⟩
  cases packets with
  | nil => exact ⟨ps, rx, by simpa using h, .inl rfl⟩
  | cons p packets =>
    refine ⟨ps ++ [rx], [], ?_, .inr rfl⟩
    rw [append_assoc]
    refine h.append (.packet (if_neg hrx) (hsend.congr rfl))

theorem receives_sent_noise : Receives [] [1, slipEnd, 2] [[1]] [2] ∧ ∃ own rx',
    Receives [] ([1, slipEnd, 2] ++ [[slipEnd], [], [slipEsc]].flatMap send) (own ++ [[slipEnd], [slipEsc]]) rx' := by
  have h : Receives [] [1, slipEnd, 2] [[1]] [2] := .packet rfl (.waits rfl)
  obtain ⟨own, rx', hown, -⟩ := receives_sent h [[slipEnd], [], [slipEsc]]
  exact ⟨h, own, rx', hown⟩

end CoreX.Slip
