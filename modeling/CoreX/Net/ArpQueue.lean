import CoreX.Net.Arp

/-!
# ARP requests (`arp.rs`)

`arp_translate` sends a request for an address that is not in the table, unless there is one in the queue that is at
most 500 ms old. It looks at the first request for the address, and a new request goes to the end: 500 ms behind the
first one every call sends a request (`requestTimes_arpCalls`). A call happens at one time, in nanoseconds.
-/

namespace CoreX.Net

open Option

structure ArpPacket where
  hardwareType : UInt16
  protocolType : UInt16
  hardwareSize : UInt8
  protocolSize : UInt8
  opcode : UInt16
  senderMac : MacAddress
  senderIp : Ipv4Address
  targetMac : MacAddress
  targetIp : Ipv4Address

structure ArpRequest where
  ip : Ipv4Address
  timestamp : Nat

/-- What `dir` points to is an `ArpRequest`, or something else. -/
structure NetQueueItem where
  component : UInt32
  dir : Option ArpRequest
  unixTime : Nat

structure NetQueue where
  queue : List NetQueueItem

def NetQueue.new : NetQueue := ⟨[]⟩

def NetQueue.search (q : NetQueue) (cmp : NetQueueItem → Bool) : Option NetQueueItem := q.queue.find? cmp

structure ArpNic where
  mac : MacAddress
  ip : Ipv4Address
  arpTable : ArpTable

def NetQueueItem.isFor (ip : Ipv4Address) (item : NetQueueItem) : Bool :=
  item.component == 1 && item.dir.any fun r => r.ip == ip

def requestAge : Nat := 500000000

section
variable (nic : ArpNic) (now : Nat) (ip : Ipv4Address) (q : NetQueue)

def arpTranslate : Option MacAddress × NetQueue × Option ArpPacket :=
  match nic.arpTable.lookup ip with
  | some mac => (some mac, q, none)
  | none =>
    let sendRequest := match q.search (NetQueueItem.isFor ip) with
      | some item => decide (now - item.unixTime > requestAge)
      | none => true
    if sendRequest then
      (none, ⟨q.queue ++ [⟨1, some ⟨ip, now⟩, now⟩]⟩,
        some ⟨swapBytes 1, swapBytes 0x0800, 6, 4, swapBytes 1, nic.mac, nic.ip, ⟨0, 0, 0, 0, 0, 0⟩, ip⟩)
    else (none, q, none)

structure ArpCall where
  time : Nat
  ip : Ipv4Address

def arpCalls (nic : ArpNic) : NetQueue → List ArpCall → List (Nat × ArpPacket)
  | _, [] => []
  | q, c :: cs =>
    let (_, q', sent) := arpTranslate nic c.time c.ip q
    (sent.map fun packet => (c.time, packet)).toList ++ arpCalls nic q' cs

def requestTimes (sent : List (Nat × ArpPacket)) : List Nat :=
  (sent.filter fun p => p.2.targetIp = ip).map Prod.fst

def callTimes (calls : List ArpCall) : List Nat :=
  (calls.filter fun c => c.ip = ip).map ArpCall.time

/-- The calls that come late enough behind the first one. -/
def retries (age : Nat) : List Nat → List Nat
  | [] => []
  | first :: times => times.filter fun t => first + age < t

/-- The requests for an address, given the time of the first one in the queue. -/
def sentAfter (age : Nat) : Option Nat → List Nat → List Nat
  | some first, times => retries age (first :: times)
  | none, [] => []
  | none, first :: times => first :: retries age (first :: times)

def NetQueue.first (ip : Ipv4Address) : Option Nat :=
  (q.search (NetQueueItem.isFor ip)).map NetQueueItem.unixTime

end

variable {nic : ArpNic} {ip : Ipv4Address}

theorem requestTimes_append (xs ys : List (Nat × ArpPacket)) :
    requestTimes ip (xs ++ ys) = requestTimes ip xs ++ requestTimes ip ys := by
  unfold requestTimes
  rw [List.filter_append, List.map_append]

theorem callTimes_cons (c : ArpCall) (cs : List ArpCall) :
    callTimes ip (c :: cs) = if c.ip = ip then c.time :: callTimes ip cs else callTimes ip cs := by
  unfold callTimes
  split_ifs with hip <;> simp [hip]

theorem sentAfter_cons (age : Nat) (first : Option Nat) (t : Nat) (times : List Nat) :
    sentAfter age first (t :: times) =
      (if first.all (fun first => first + age < t) then [t] else []) ++ sentAfter age (first.or (some t)) times := by
  cases first with
  | none => rfl
  | some first => by_cases hlate : first + age < t <;> simp [sentAfter, retries, hlate]

section
variable (q : NetQueue) (ip' : Ipv4Address) (now : Nat)

theorem first_push : (⟨q.queue ++ [⟨1, some ⟨ip', now⟩, now⟩]⟩ : NetQueue).first ip =
      (q.first ip).or (if ip' = ip then some now else none) := by
  unfold NetQueue.first NetQueue.search
  rw [List.find?_append]
  cases q.queue.find? (NetQueueItem.isFor ip) with
  | some item => rfl
  | none => by_cases hip : ip' = ip <;> simp [NetQueueItem.isFor, hip]

theorem sendRequest_eq : (match q.search (NetQueueItem.isFor ip) with
      | some item => decide (now - item.unixTime > requestAge)
      | none => true) = (q.first ip).all fun first => first + requestAge < now := by
  unfold NetQueue.first
  cases q.search (NetQueueItem.isFor ip) with
  | none => rfl
  | some item =>
    rw [map_some, all_some]
    exact decide_eq_decide.2 Nat.lt_sub_iff_add_lt'

theorem arpTranslate_spec (ip' : Ipv4Address) (q : NetQueue) :
    requestTimes ip ((arpTranslate nic now ip' q).2.2.map fun packet => (now, packet)).toList =
        (if ip' = ip ∧ nic.arpTable.lookup ip = none ∧ (q.first ip).all fun first => first + requestAge < now
          then [now] else []) ∧ (nic.arpTable.lookup ip = none →
        (arpTranslate nic now ip' q).2.1.first ip = (q.first ip).or (if ip' = ip then some now else none)) := by
  unfold arpTranslate
  rw [sendRequest_eq]
  cases hlookup : nic.arpTable.lookup ip' with
  | some mac =>
    have hne : nic.arpTable.lookup ip = none → ip' ≠ ip := by
      rintro hnone rfl
      rw [hnone] at hlookup
      cases hlookup
    dsimp only
    refine ⟨?_, fun hnone => ?_⟩
    · rw [if_neg fun h => hne h.2.1 h.1]
      rfl
    · rw [if_neg (hne hnone), or_none]
  | none =>
    by_cases hsend : ((q.first ip').all fun first => first + requestAge < now) = true
    · rw [if_pos hsend]
      refine ⟨?_, fun _ => first_push q ip' now⟩
      by_cases hip : ip' = ip
      · subst hip
        rw [if_pos ⟨rfl, hlookup, hsend⟩]
        simp [requestTimes]
      · rw [if_neg fun h => hip h.1]
        simp [requestTimes, hip]
    · rw [if_neg hsend]
      refine ⟨?_, fun _ => ?_⟩
      · rw [if_neg]
        · rfl
        · rintro ⟨rfl, -, hall⟩
          exact hsend hall
      · by_cases hip : ip' = ip
        · subst hip
          cases hfirst : q.first ip' with
          | none => exact absurd (by rw [hfirst]; rfl) hsend
          | some first => rfl
        · rw [if_neg hip, or_none]

end

theorem requestTimes_arpCalls (nic : ArpNic) (ip : Ipv4Address) (calls : List ArpCall) : ∀ q : NetQueue,
    requestTimes ip (arpCalls nic q calls) =
      if nic.arpTable.lookup ip = none then sentAfter requestAge (q.first ip) (callTimes ip calls) else [] := by
  induction calls with
  | nil =>
    intro q
    cases q.first ip <;> simp [arpCalls, requestTimes, callTimes, sentAfter, retries]
  | cons c cs ih =>
    intro q
    obtain ⟨hsent, hfirst⟩ := @arpTranslate_spec nic ip c.time c.ip q
    rw [arpCalls, requestTimes_append, hsent, ih, callTimes_cons]
    by_cases hnew : nic.arpTable.lookup ip = none
    · rw [hfirst hnew]
      by_cases hip : c.ip = ip
      · simp only [hnew, hip, sentAfter_cons, true_and, if_true]
      · simp [hnew, hip]
    · simp [hnew]

/-- **The requests for an address are 500 ms apart** if and only if the calls are that come later than 500 ms behind
the first one, unless the address is in the table. -/
theorem arpCalls_spaced_iff (nic : ArpNic) (calls : List ArpCall) (ip : Ipv4Address) :
    (requestTimes ip (arpCalls nic .new calls)).Pairwise (fun t u => t + requestAge ≤ u) ↔
      (nic.arpTable.lookup ip = none →
        (retries requestAge (callTimes ip calls)).Pairwise fun t u => t + requestAge ≤ u) := by
  rw [requestTimes_arpCalls]
  split_ifs with hnew
  · show (sentAfter requestAge none (callTimes ip calls)).Pairwise _ ↔ _
    cases callTimes ip calls with
    | nil => simp [sentAfter, retries]
    | cons first times =>
      rw [sentAfter, List.pairwise_cons]
      refine ⟨fun h _ => h.2, fun h => ⟨fun t ht => ?_, h hnew⟩⟩
      have hlate := (List.mem_filter.1 ht).2
      exact Nat.le_of_lt (of_decide_eq_true hlate)
  · simp [hnew]

def sampleCall (millis : Nat) : ArpCall := ⟨millis * 1000000, ⟨10, 0, 0, 1⟩⟩

/-- Two requests within a millisecond, after the first one has become old. -/
theorem arpCalls_burst : requestTimes ⟨10, 0, 0, 1⟩ (arpCalls ⟨⟨2, 0, 0, 0, 0, 1⟩, ⟨10, 0, 0, 2⟩, .new⟩ .new
      [sampleCall 0, sampleCall 501, sampleCall 502]) = [0, 501000000, 502000000] := by
  decide

end CoreX.Net
