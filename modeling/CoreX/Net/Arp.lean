import Mathlib.Data.List.Induction
import CoreX.Net.Ipv4

/-!
# The ARP table (`arp.rs`)

`ArpTable::add` takes out the first entry that shares the address or the hardware address of the new pair, and puts
the pair at the end. A pair may meet two entries, one by each of the two. The second one then stays.
-/

namespace CoreX.Net

open List Option

structure MacAddress where
  (a b c d e f : UInt8)
  deriving DecidableEq

structure ArpEntry where
  mac : MacAddress
  ip : Ipv4Address
  deriving DecidableEq

structure ArpTable where
  entries : List ArpEntry
  deriving DecidableEq

def ArpTable.new : ArpTable := ⟨[]⟩

def ArpTable.lookup (table : ArpTable) (ip : Ipv4Address) : Option MacAddress :=
  (table.entries.find? fun entry => entry.ip == ip).map ArpEntry.mac

def ArpEntry.conflicts (mac : MacAddress) (ip : Ipv4Address) (e : ArpEntry) : Bool := e.ip == ip || e.mac == mac

def ArpTable.add (table : ArpTable) (mac : MacAddress) (ip : Ipv4Address) : ArpTable :=
  let entries :=
    match table.entries.findIdx? (ArpEntry.conflicts mac ip) with
    | some pos => table.entries.eraseIdx pos
    | none => table.entries
  ⟨entries ++ [⟨mac, ip⟩]⟩

def ArpTable.adds (table : ArpTable) (calls : List ArpEntry) : ArpTable :=
  calls.foldl (fun table call => table.add call.mac call.ip) table

/-! ## One call -/

variable {table : ArpTable} {mac : MacAddress} {ip ip' : Ipv4Address}

/-- No address is in two entries. -/
def ArpTable.Unique (table : ArpTable) : Prop := table.entries.Pairwise fun e f => e.ip ≠ f.ip ∧ e.mac ≠ f.mac

instance (table : ArpTable) : Decidable table.Unique :=
  inferInstanceAs (Decidable (List.Pairwise _ _))

/-- The pair meets two entries: one has its address and another one its hardware address. -/
def ArpTable.Clash (table : ArpTable) (mac : MacAddress) (ip : Ipv4Address) : Prop :=
  ∃ e ∈ table.entries, ∃ f ∈ table.entries, e.ip = ip ∧ f.mac = mac ∧ e ≠ f

instance (table : ArpTable) (mac : MacAddress) (ip : Ipv4Address) : Decidable (table.Clash mac ip) :=
  inferInstanceAs (Decidable (∃ e ∈ table.entries, ∃ f ∈ table.entries, e.ip = ip ∧ f.mac = mac ∧ e ≠ f))

theorem ArpEntry.conflicts_iff {e : ArpEntry} : e.conflicts mac ip = true ↔ e.ip = ip ∨ e.mac = mac := by
  simp [ArpEntry.conflicts]

section
variable (table mac ip)

theorem ArpTable.entries_add :
    (table.add mac ip).entries = table.entries.eraseP (ArpEntry.conflicts mac ip) ++ [⟨mac, ip⟩] := by
  rw [eraseP_eq_eraseIdx, ArpTable.add]
  cases table.entries.findIdx? (ArpEntry.conflicts mac ip) with
  | none | some => rfl

theorem ArpTable.add_cases :
    ((∀ e ∈ table.entries, e.ip ≠ ip ∧ e.mac ≠ mac) ∧ (table.add mac ip).entries = table.entries ++ [⟨mac, ip⟩]) ∨
    ∃ front a back, table.entries = front ++ a :: back ∧ (a.ip = ip ∨ a.mac = mac) ∧
      (∀ e ∈ front, e.ip ≠ ip ∧ e.mac ≠ mac) ∧ (table.add mac ip).entries = front ++ back ++ [⟨mac, ip⟩] := by
  rw [table.entries_add]
  have hNot : ∀ e : ArpEntry, ¬ e.conflicts mac ip = true → e.ip ≠ ip ∧ e.mac ≠ mac := by
    intro e he
    rw [ArpEntry.conflicts_iff] at he
    exact not_or.1 he
  by_cases hAny : ∃ e ∈ table.entries, e.conflicts mac ip = true
  · obtain ⟨e, hMem, hConflicts⟩ := hAny
    obtain ⟨a, front, back, hFront, ha, hSplit, hErase⟩ := exists_of_eraseP hMem hConflicts
    refine .inr ⟨front, a, back, hSplit, ArpEntry.conflicts_iff.1 ha, fun e he => hNot e (hFront e he), ?_⟩
    rw [hErase]
  · push Not at hAny
    refine .inl ⟨fun e he => hNot e (hAny e he), ?_⟩
    rw [eraseP_of_forall_not hAny]

end

section
variable {rest : List ArpEntry} (h : table.entries = rest ++ [⟨mac, ip⟩])
include h

theorem ArpTable.unique_iff :
    table.Unique ↔ (rest.Pairwise fun e f => e.ip ≠ f.ip ∧ e.mac ≠ f.mac) ∧ ∀ e ∈ rest, e.ip ≠ ip ∧ e.mac ≠ mac := by
  rw [ArpTable.Unique, h, pairwise_append]
  simp

theorem ArpTable.lookup_eq (hRest : ∀ e ∈ rest, e.ip ≠ ip) : table.lookup ip = some mac := by
  have hNone : rest.find? (fun entry => entry.ip == ip) = none := find?_eq_none.2 (by simpa using hRest)
  rw [ArpTable.lookup, h, find?_append, hNone, find?_cons_of_pos (by simp)]
  rfl

end

theorem ArpTable.Unique.add (h : table.Unique) (hClash : ¬ table.Clash mac ip) :
    (table.add mac ip).Unique ∧ (table.add mac ip).lookup ip = some mac := by
  rcases table.add_cases mac ip with ⟨hNone, hAdd⟩ | ⟨front, a, back, hSplit, ha, hFront, hAdd⟩
  · exact ⟨(ArpTable.unique_iff hAdd).2 ⟨h, hNone⟩, ArpTable.lookup_eq hAdd fun e he => (hNone e he).1⟩
  have hPairs := h
  rw [ArpTable.Unique, hSplit, pairwise_append, pairwise_cons] at hPairs
  obtain ⟨hFrontPairs, ⟨haBack, hBackPairs⟩, hAcross⟩ := hPairs
  have hMem : ∀ e, e = a ∨ e ∈ back → e ∈ table.entries := by
    intro e he
    rw [hSplit, mem_append, mem_cons]
    exact .inr he
  -- an entry behind `a` in conflict with the pair meets it by the other half
  have hBack : ∀ e ∈ back, e.ip ≠ ip ∧ e.mac ≠ mac := by
    intro e he
    obtain ⟨hIp, hMac⟩ := haBack e he
    have hNe : a ≠ e := fun hEq => hIp (congrArg ArpEntry.ip hEq)
    rcases ha with ha | ha
    · exact ⟨fun heIp => hIp (ha.trans heIp.symm), fun heMac =>
        hClash ⟨a, hMem a (.inl rfl), e, hMem e (.inr he), ha, heMac, hNe⟩⟩
    · exact ⟨fun heIp => hClash ⟨e, hMem e (.inr he), a, hMem a (.inl rfl), heIp, ha, hNe.symm⟩,
        fun heMac => hMac (ha.trans heMac.symm)⟩
  have hRest : ∀ e ∈ front ++ back, e.ip ≠ ip ∧ e.mac ≠ mac := by
    intro e he
    exact (mem_append.1 he).elim (hFront e) (hBack e)
  have hKept : (front ++ back).Pairwise fun e f => e.ip ≠ f.ip ∧ e.mac ≠ f.mac :=
    pairwise_append.2 ⟨hFrontPairs, hBackPairs, fun e he f hf =>
      hAcross e he f (mem_cons_of_mem _ hf)⟩
  exact ⟨(ArpTable.unique_iff hAdd).2 ⟨hKept, hRest⟩, ArpTable.lookup_eq hAdd fun e he => (hRest e he).1⟩

theorem ArpTable.Clash.not_unique (h : table.Clash mac ip) : ¬ (table.add mac ip).Unique := by
  obtain ⟨e, he, f, hf, hIp, hMac, hNe⟩ := h
  intro hUnique
  rcases table.add_cases mac ip with ⟨hNone, -⟩ | ⟨front, a, back, hSplit, -, -, hAdd⟩
  · exact (hNone e he).1 hIp
  have hRest := ((ArpTable.unique_iff hAdd).1 hUnique).2
  have hStays : ∀ x ∈ table.entries, x ≠ a → x ∈ front ++ back := by
    intro x hx hxa
    rw [hSplit, mem_append, mem_cons] at hx
    rw [mem_append]
    exact hx.imp_right fun hx => hx.resolve_left hxa
  by_cases hea : e = a
  · exact (hRest f (hStays f hf fun hfa => hNe (hea.trans hfa.symm))).2 hMac
  · exact (hRest e (hStays e he hea)).1 hIp

theorem ArpTable.lookup_add (hIp : ip' ≠ ip) (hMac : table.lookup ip' ≠ some mac) :
    (table.add mac ip).lookup ip' = table.lookup ip' := by
  have hLast : find? (fun entry : ArpEntry => entry.ip == ip') [⟨mac, ip⟩] = none := by
    simpa using hIp.symm
  rcases table.add_cases mac ip with ⟨-, hAdd⟩ | ⟨front, a, back, hSplit, ha, -, hAdd⟩
  · rw [ArpTable.lookup, ArpTable.lookup, hAdd, find?_append, hLast, or_none]
  rw [ArpTable.lookup, hSplit, find?_append] at hMac
  rw [ArpTable.lookup, ArpTable.lookup, hAdd, hSplit, find?_append, hLast, or_none,
    find?_append, find?_append]
  cases hFront : front.find? fun entry => entry.ip == ip' with
  | some e => rfl
  | none =>
    rw [hFront, none_or] at hMac
    by_cases haIp : a.ip = ip'
    · -- the entry that is taken out was the binding of the address
      rw [find?_cons_of_pos (by simpa using haIp)] at hMac
      have haMac : a.mac = mac := ha.resolve_left fun h => hIp (haIp.symm.trans h)
      exact absurd (congrArg some haMac) hMac
    · rw [find?_cons_of_neg (by simpa using haIp)]

/-! ## Sequences of calls -/

theorem ArpTable.adds_concat (table : ArpTable) (front : List ArpEntry) (call : ArpEntry) :
    table.adds (front ++ [call]) = (table.adds front).add call.mac call.ip := by
  rw [ArpTable.adds, foldl_append]
  rfl

/-- No call meets two entries at once. -/
def NoClash (calls : List ArpEntry) : Prop :=
  ∀ front call, front ++ [call] <+: calls → ¬ (ArpTable.new.adds front).Clash call.mac call.ip

theorem ArpTable.adds_unique {calls : List ArpEntry} (h : NoClash calls) : (ArpTable.new.adds calls).Unique := by
  induction calls using reverseRecOn with
  | nil => exact List.Pairwise.nil
  | append_singleton front call ih =>
    have hFront : NoClash front := fun front' call' hPre =>
      h front' call' (hPre.trans (prefix_append _ _))
    rw [ArpTable.adds_concat]
    exact (ArpTable.Unique.add (ih hFront) (h front call (prefix_refl _))).1

/-- **From the empty table, every address and every hardware address stays in one entry and the pair
just added is found, exactly if no call meets two entries at once.** What a call changes is always
confined to its own address and to one that was bound to its hardware address. -/
theorem arpTable_unique_iff (calls : List ArpEntry) : ((∀ front, front <+: calls → (ArpTable.new.adds front).Unique) ∧
      (∀ front call, front ++ [call] <+: calls →
        (ArpTable.new.adds (front ++ [call])).lookup call.ip = some call.mac) ↔ NoClash calls) ∧
    ∀ front call ip, front ++ [call] <+: calls →
      (ArpTable.new.adds (front ++ [call])).lookup ip ≠ (ArpTable.new.adds front).lookup ip →
      ip = call.ip ∨ (ArpTable.new.adds front).lookup ip = some call.mac := by
  refine ⟨⟨?_, ?_⟩, ?_⟩
  · rintro ⟨hUnique, -⟩ front call hPre hClash
    have hAfter := hUnique (front ++ [call]) hPre
    rw [ArpTable.adds_concat] at hAfter
    exact hClash.not_unique hAfter
  · intro h
    have hNoClash : ∀ front, front <+: calls → NoClash front := fun front hFront front' call' hPre =>
      h front' call' (hPre.trans hFront)
    refine ⟨fun front hFront => ArpTable.adds_unique (hNoClash front hFront), fun front call hPre => ?_⟩
    have hBefore := ArpTable.adds_unique (hNoClash front ((prefix_append _ _).trans hPre))
    rw [ArpTable.adds_concat]
    exact (hBefore.add (h front call hPre)).2
  · intro front call ip _ hChanged
    rw [ArpTable.adds_concat] at hChanged
    by_contra hNot
    obtain ⟨hIp, hMac⟩ := not_or.1 hNot
    exact hChanged (ArpTable.lookup_add hIp hMac)

def twoHosts : List ArpEntry := [⟨⟨2, 0, 0, 0, 0, 1⟩, ⟨10, 0, 0, 1⟩⟩, ⟨⟨2, 0, 0, 0, 0, 2⟩, ⟨10, 0, 0, 2⟩⟩]

/-- The first host takes over the address of the second one. Its own entry is taken out, and that of the second host
stays: the address is in the table twice, and still leads to the second host. In the other direction the hardware
address is in the table twice. -/
theorem arpTable_twice :
    (ArpTable.new.adds (twoHosts ++ [⟨⟨2, 0, 0, 0, 0, 1⟩, ⟨10, 0, 0, 2⟩⟩])).lookup ⟨10, 0, 0, 2⟩ =
        some ⟨2, 0, 0, 0, 0, 2⟩ ∧ ¬ (ArpTable.new.adds (twoHosts ++ [⟨⟨2, 0, 0, 0, 0, 1⟩, ⟨10, 0, 0, 2⟩⟩])).Unique ∧
      (ArpTable.new.adds (twoHosts ++ [⟨⟨2, 0, 0, 0, 0, 2⟩, ⟨10, 0, 0, 1⟩⟩])).entries =
        [⟨⟨2, 0, 0, 0, 0, 2⟩, ⟨10, 0, 0, 2⟩⟩, ⟨⟨2, 0, 0, 0, 0, 2⟩, ⟨10, 0, 0, 1⟩⟩] := by
  decide

end CoreX.Net
