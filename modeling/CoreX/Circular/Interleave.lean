import CoreX.Circular.Fifo
import CoreX.Circular.IntModel

/-!
# Reads and writes that interleave

Each side loads the other's pointer once and works with a stale copy of it, which shows fewer readable bytes or fewer
writable cells than there are. A call moves its own pointer only at its end. So a writer stores behind the bytes that
can be read, and a reader copies from among them (`CircularInt.Valid`).
-/

namespace CoreX.Circ

open Function List Option Nat CoreX.Ring Run

variable {ι : Type} {size : Nat} {out : Bytes} {writer : Writer}

section
variable (size) (buff : Buf) (readPtr writePtr : Nat)

/-- What a writer knows. Its copy of `writePtr` is current. The bytes it will have stored fit behind those
that can be read, and the ones it has stored are there. -/
def Writer.Valid : Writer → Prop
  | .idle => True
  | .loadWrite _ => True
  | .loadRead _ write => write = writePtr
  | .check _ write read => write = writePtr ∧ read < size ∧
      circReadable writePtr readPtr size ≤ circReadable writePtr read size
  | .store bytes rest write =>
      circReadable writePtr readPtr size + bytes.length < size ∧
      ∃ k, k + rest.length = bytes.length ∧ write = (writePtr + k) % size ∧
        bytes = Ring.window buff size writePtr k ++ rest

/-- What a reader knows while it holds the lock. Its copy of `readPtr` is current. The bytes it will have
copied can be read, and the ones it has copied are the oldest of them. -/
def Reader.Valid (holds : Prop) : Reader → Prop
  | .idle => True
  | .acquire length => 0 < length
  | .loadWrite length => holds ∧ 0 < length
  | .loadRead length write => holds ∧ 0 < length ∧ write < size ∧
      circReadable write readPtr size ≤ circReadable writePtr readPtr size
  | .check length write read => holds ∧ 0 < length ∧ write < size ∧ read = readPtr ∧
      circReadable write readPtr size ≤ circReadable writePtr readPtr size
  | .copy toCopy read out => holds ∧ 0 < toCopy ∧ out.length ≤ toCopy ∧
      toCopy ≤ circReadable writePtr readPtr size ∧ read = (readPtr + out.length) % size ∧
      out = Ring.window buff size readPtr out.length
  | .release _ => holds

end

structure CircularInt.Valid (size : Nat) (circ : CircularInt ι) : Prop where
  size_eq : circ.buffSize = size
  read_lt : circ.readPtr < size
  write_lt : circ.writePtr < size
  writer : circ.writer.Valid size circ.buff circ.readPtr circ.writePtr
  readers : ∀ i, (circ.readers i).Valid size circ.buff circ.readPtr circ.writePtr (circ.lockRead = some i)
  accepted_eq : circ.accepted = circ.returned ++ circ.returning ++ circ.contents

variable {buff : Buf} {readPtr writePtr k : Nat} {reader : Reader} {holds : Prop} {actions : List (Action ι)}

theorem add_mod_write (hread : readPtr < size) (hwrite : writePtr < size) (k : Nat) :
    (writePtr + k) % size = (readPtr + (circReadable writePtr readPtr size + k)) % size := by
  rw [add_add_mod, add_circReadable hread hwrite]

theorem valid_circularIntAllocate (buff : Buf) (hsize : 1 ≤ size) :
    (circularIntAllocate buff size : CircularInt ι).Valid size :=
  ⟨rfl, hsize, hsize, trivial, fun _ => trivial, rfl⟩

theorem CircularInt.Valid.store_ne_copy {circ : CircularInt ι} (h : circ.Valid size) {i : ι}
    {toCopy read write : Nat} {bytes rest : Bytes} {b : UInt8}
    (hreader : circ.readers i = .copy toCopy read out) (hwriter : circ.writer = .store bytes (b :: rest) write)
    {k : Nat} (hk : out.length + k < toCopy) : write ≠ (read + k) % size := by
  have hr := h.readers i
  have hw := h.writer
  rw [hreader] at hr
  rw [hwriter] at hw
  obtain ⟨-, -, -, hcan, rfl, -⟩ := hr
  obtain ⟨hfits, l, hlen, rfl, -⟩ := hw
  rw [add_mod_write h.read_lt h.write_lt, ← add_add_mod]
  intro heq
  have := add_mod_inj (by omega) (by omega) heq
  omega

section
variable (h : reader.Valid size buff readPtr writePtr holds) (hread : readPtr < size) (hwrite : writePtr < size)
  (hk : circReadable writePtr readPtr size + k < size)
include h hread hwrite hk

theorem Reader.Valid.store (b : UInt8) :
    reader.Valid size (update buff ((writePtr + k) % size) b) readPtr writePtr holds := by
  cases reader with
  | copy toCopy read out =>
    obtain ⟨hholds, hpos, hle, hcan, hpos', hout⟩ := h
    refine ⟨hholds, hpos, hle, hcan, hpos', ?_⟩
    rw [add_mod_write hread hwrite, window_update_of_le (by omega) hk]
    exact hout
  | _ => exact h

theorem Reader.Valid.publish : reader.Valid size buff readPtr ((writePtr + k) % size) holds := by
  have hmore := circReadable_write hread hwrite hk
  cases reader with
  | loadRead length write =>
    obtain ⟨hholds, hpos, hlt, hle⟩ := h
    exact ⟨hholds, hpos, hlt, by omega⟩
  | check length write read =>
    obtain ⟨hholds, hpos, hlt, heq, hle⟩ := h
    exact ⟨hholds, hpos, hlt, heq, by omega⟩
  | copy toCopy read out =>
    obtain ⟨hholds, hpos, hle, hcan, hpos', hout⟩ := h
    exact ⟨hholds, hpos, hle, by omega, hpos', hout⟩
  | _ => exact h

end

theorem Writer.Valid.advance (h : writer.Valid size buff readPtr writePtr) (hread : readPtr < size)
    (hwrite : writePtr < size) (hk : k ≤ circReadable writePtr readPtr size) :
    writer.Valid size buff ((readPtr + k) % size) writePtr := by
  have hless := circReadable_read hread hwrite hk
  cases writer with
  | check bytes write read =>
    obtain ⟨heq, hlt, hle⟩ := h
    exact ⟨heq, hlt, by omega⟩
  | store bytes rest write =>
    obtain ⟨hfits, hstored⟩ := h
    exact ⟨by omega, hstored⟩
  | _ => exact h

/-- A reader that does not hold the lock knows nothing, so nothing it knows can become wrong. -/
theorem Reader.Valid.of_not_holds (h : reader.Valid size buff readPtr writePtr holds) (hnot : ¬ holds)
    (buff' : Buf) (readPtr' writePtr' : Nat) (holds' : Prop) :
    reader.Valid size buff' readPtr' writePtr' holds' ∧ reader.taken = [] := by
  cases reader with
  | idle | acquire => exact ⟨h, rfl⟩
  | release out => exact absurd h hnot
  | _ => exact absurd h.1 hnot

/-! ## Steps of the writer -/

theorem CircularInt.Valid.setWriter {circ : CircularInt ι} (h : circ.Valid size)
    (hwriter : writer.Valid size circ.buff circ.readPtr circ.writePtr) : { circ with writer := writer }.Valid size :=
  ⟨h.size_eq, h.read_lt, h.write_lt, hwriter, h.readers, h.accepted_eq⟩

theorem writerStep_valid {circ circ' : CircularInt ι} (h : circ.Valid size)
    (hstep : writerStep circ = some circ') : circ'.Valid size := by
  have hwriter := h.writer
  have hread := h.read_lt
  have hwrite := h.write_lt
  rw [writerStep] at hstep
  split at hstep
  · exact absurd hstep (by simp)
  · obtain rfl := some.inj hstep
    exact h.setWriter rfl
  · rename_i bytes write hphase
    obtain rfl := some.inj hstep
    rw [hphase] at hwriter
    exact h.setWriter ⟨hwriter, hread, le_refl _⟩
  · rename_i bytes write read hphase
    rw [hphase] at hwriter
    obtain ⟨rfl, hlt, hle⟩ := hwriter
    split_ifs at hstep with hfull
    · obtain rfl := some.inj hstep
      exact h.setWriter trivial
    · obtain rfl := some.inj hstep
      have hstale := circReadable_lt hlt hwrite
      rw [circWritable, h.size_eq] at hfull
      refine h.setWriter ⟨by omega, 0, zero_add _, ?_, rfl⟩
      rw [add_zero, mod_eq_of_lt hwrite]
  · rename_i bytes b rest write hphase
    obtain rfl := some.inj hstep
    rw [hphase] at hwriter
    obtain ⟨hfits, k, hlen, rfl, hstored⟩ := hwriter
    rw [length_cons] at hlen
    have hk : circReadable circ.writePtr circ.readPtr size + k < size := by omega
    refine ⟨h.size_eq, hread, hwrite, ⟨hfits, k + 1, by omega, ?_, ?_⟩,
      fun i => (h.readers i).store hread hwrite hk b, ?_⟩
    · rw [h.size_eq, mod_add_mod, add_assoc]
    · rw [window_update_succ (by omega), append_assoc, singleton_append]
      exact hstored
    · rw [h.accepted_eq, CircularInt.contents, CircularInt.contents, h.size_eq]
      rw [add_mod_write hread hwrite, window_update_of_le (le_add_right _ _) hk]
      rfl
  · rename_i bytes write hphase
    obtain rfl := some.inj hstep
    rw [hphase] at hwriter
    obtain ⟨hfits, k, hlen, rfl, hstored⟩ := hwriter
    have hk : circReadable circ.writePtr circ.readPtr size + k < size := by omega
    refine ⟨h.size_eq, hread, mod_lt _ (by omega), trivial, fun i => (h.readers i).publish hread hwrite hk, ?_⟩
    have hcontents := h.accepted_eq
    rw [CircularInt.contents, h.size_eq] at hcontents
    rw [CircularInt.contents]
    simp only [h.size_eq]
    rw [circReadable_write hread hwrite hk, window_add, add_circReadable hread hwrite, hcontents,
      hstored, append_nil, append_assoc]
    rfl

/-! ## Steps of a reader -/

section
variable [DecidableEq ι] {circ circ' : CircularInt ι} {i : ι}

theorem CircularInt.returning_setReader (hlock : circ.lockRead = some i) (reader : Reader) :
    (circ.setReader i reader).returning = reader.taken := by
  simp only [CircularInt.returning, CircularInt.setReader, hlock, update_self]

omit [DecidableEq ι] in
theorem returning_of_holds (hlock : circ.lockRead = some i) : circ.returning = (circ.readers i).taken := by
  rw [CircularInt.returning, hlock]

omit [DecidableEq ι] in
theorem lockRead_ne_of_holds (hlock : circ.lockRead = some i) (j : ι) (hj : j ≠ i) : circ.lockRead ≠ some j := by
  rw [hlock]
  exact fun heq => hj (some.inj heq).symm

section
variable (h : circ.Valid size)
include h

theorem CircularInt.Valid.others (hlock : ∀ j, j ≠ i → circ.lockRead ≠ some j) (readPtr' : Nat) (lock' : Option ι)
    (hreader : reader.Valid size circ.buff readPtr' circ.writePtr (lock' = some i)) (j : ι) :
    (update circ.readers i reader j).Valid size circ.buff readPtr' circ.writePtr (lock' = some j) := by
  by_cases hj : j = i
  · subst hj
    rw [update_self]
    exact hreader
  · rw [update_of_ne hj]
    exact ((h.readers j).of_not_holds (hlock j hj) _ _ _ _).1

theorem CircularInt.Valid.setReader
    (hreader : reader.Valid size circ.buff circ.readPtr circ.writePtr (circ.lockRead = some i))
    (htaken : reader.taken = (circ.readers i).taken) : (circ.setReader i reader).Valid size := by
  refine ⟨h.size_eq, h.read_lt, h.write_lt, h.writer, fun j => ?_, ?_⟩
  · by_cases hj : j = i
    · subst hj
      simp only [CircularInt.setReader, update_self]
      exact hreader
    · simp only [CircularInt.setReader, update_of_ne hj]
      exact h.readers j
  · have hreturning : (circ.setReader i reader).returning = circ.returning := by
      simp only [CircularInt.returning, CircularInt.setReader]
      cases circ.lockRead with
      | none => rfl
      | some j =>
        by_cases hj : j = i
        · subst hj
          simp only [update_self, htaken]
        · simp only [update_of_ne hj]
    rw [hreturning]
    exact h.accepted_eq

theorem CircularInt.Valid.moveReadPtr (hlock : circ.lockRead = some i) (htaken : (circ.readers i).taken = [])
    (hlen : out.length ≤ circReadable circ.writePtr circ.readPtr size)
    (hout : out = window circ.buff size circ.readPtr out.length) :
    (CircularInt.setReader { circ with readPtr := (circ.readPtr + out.length) % size } i
      (.release out)).Valid size := by
  have hread := h.read_lt
  have hwrite := h.write_lt
  set circ₁ : CircularInt ι := { circ with readPtr := (circ.readPtr + out.length) % size } with hcirc₁
  have hlock₁ : circ₁.lockRead = some i := hlock
  refine ⟨h.size_eq, mod_lt _ (by omega), hwrite, h.writer.advance hread hwrite hlen, ?_, ?_⟩
  · exact h.others (lockRead_ne_of_holds hlock) _ _ hlock
  have hacc := h.accepted_eq
  rw [returning_of_holds hlock, htaken, append_nil, CircularInt.contents, h.size_eq] at hacc
  have hsplit : window circ.buff size circ.readPtr
      (out.length + (circReadable circ.writePtr circ.readPtr size - out.length)) = _ ++ _ :=
    window_add _ _
  rw [Nat.add_sub_cancel' hlen, ← hout] at hsplit
  rw [CircularInt.returning_setReader hlock₁]
  show circ.accepted = circ.returned ++ out ++ window circ.buff circ.buffSize
    ((circ.readPtr + out.length) % size)
    (circReadable circ.writePtr ((circ.readPtr + out.length) % size) circ.buffSize)
  rw [h.size_eq, circReadable_read hread hwrite hlen, hacc, hsplit, append_assoc]

theorem CircularInt.Valid.acquireLock (hfree : circ.lockRead = none) {length : Nat} (hlength : 0 < length) :
    (CircularInt.setReader { circ with lockRead := some i } i (.loadWrite length)).Valid size := by
  refine ⟨h.size_eq, h.read_lt, h.write_lt, h.writer, ?_, ?_⟩
  · exact h.others (fun j _ => by rw [hfree]; simp) _ (some i) ⟨rfl, hlength⟩
  · have hacc := h.accepted_eq
    rw [CircularInt.returning, hfree] at hacc
    rw [CircularInt.returning_setReader rfl]
    exact hacc

theorem CircularInt.Valid.releaseLock (hlock : circ.lockRead = some i) :
    (CircularInt.setReader { circ with lockRead := none, returned := circ.returned ++ (circ.readers i).taken } i
      .idle).Valid size := by
  refine ⟨h.size_eq, h.read_lt, h.write_lt, h.writer, ?_, ?_⟩
  · exact h.others (lockRead_ne_of_holds hlock) _ none trivial
  · have hacc := h.accepted_eq
    rw [returning_of_holds hlock] at hacc
    rw [show (CircularInt.setReader { circ with lockRead := none, returned := circ.returned ++ (circ.readers i).taken }
      i .idle).returning = [] from rfl, append_nil]
    exact hacc

theorem readerStep_valid (hstep : readerStep circ i = some circ') : circ'.Valid size := by
  have hreader := h.readers i
  have hread := h.read_lt
  rw [readerStep] at hstep
  cases hphase : circ.readers i with
  | idle =>
    rw [hphase] at hstep
    exact absurd hstep (by simp)
  | acquire length =>
    rw [hphase] at hstep hreader
    cases hfree : circ.lockRead with
    | none =>
      rw [hfree] at hstep
      obtain rfl := some.inj hstep
      exact h.acquireLock hfree hreader
    | some j =>
      rw [hfree] at hstep
      exact absurd hstep (by simp)
  | loadWrite length =>
    rw [hphase] at hstep hreader
    obtain rfl := some.inj hstep
    obtain ⟨hlock, hlength⟩ := hreader
    exact h.setReader ⟨hlock, hlength, h.write_lt, le_refl _⟩ (by rw [hphase]; rfl)
  | loadRead length write =>
    rw [hphase] at hstep hreader
    obtain rfl := some.inj hstep
    obtain ⟨hlock, hlength, hlt, hle⟩ := hreader
    exact h.setReader ⟨hlock, hlength, hlt, rfl, hle⟩ (by rw [hphase]; rfl)
  | check length write read =>
    rw [hphase] at hstep hreader
    obtain ⟨hlock, hlength, hlt, rfl, hle⟩ := hreader
    simp only at hstep
    split_ifs at hstep with hempty
    · obtain rfl := some.inj hstep
      exact h.setReader hlock (by rw [hphase]; rfl)
    obtain rfl := some.inj hstep
    have hpos : circReadable write circ.readPtr size ≠ 0 := fun hzero => hempty (by
      rw [← add_circReadable hread hlt, hzero, add_zero, mod_eq_of_lt hread])
    refine h.setReader ⟨hlock, ?_, zero_le _, ?_, ?_, rfl⟩ (by rw [hphase]; rfl)
    · rw [h.size_eq]
      omega
    · rw [h.size_eq]
      omega
    · rw [length_nil, add_zero, mod_eq_of_lt hread]
  | copy toCopy read out =>
    rw [hphase] at hstep hreader
    obtain ⟨hlock, hpos, hle, hcan, rfl, hout⟩ := hreader
    simp only at hstep
    split_ifs at hstep with hmore
    · obtain rfl := some.inj hstep
      refine h.setReader ⟨hlock, hpos, ?_, hcan, ?_, ?_⟩ (by rw [hphase]; rfl)
      · rw [length_append, length_singleton]
        exact hmore
      · rw [h.size_eq, mod_add_mod, length_append, length_singleton, add_assoc]
      · rw [length_append, length_singleton, window_add, ← hout]
        simp [window]
    · obtain rfl := some.inj hstep
      exact h.moveReadPtr hlock (by rw [hphase]; rfl) (by omega) hout
  | release out =>
    rw [hphase] at hstep hreader
    obtain rfl := some.inj hstep
    have hvalid := h.releaseLock hreader
    rw [hphase] at hvalid
    exact hvalid

end

/-! ## All interleavings -/

theorem actionStep_valid (action : Action ι) (h : circ.Valid size)
    (hstep : actionStep circ action = some circ') : circ'.Valid size := by
  cases action with
  | callWrite bytes =>
    rw [actionStep] at hstep
    split at hstep
    · split_ifs at hstep
      obtain rfl := some.inj hstep
      exact h.setWriter trivial
    · exact absurd hstep (by simp)
  | callRead i length =>
    rw [actionStep] at hstep
    split at hstep
    · rename_i hidle
      split_ifs at hstep with hlength
      obtain rfl := some.inj hstep
      exact h.setReader (Nat.pos_of_ne_zero hlength) (by rw [hidle]; rfl)
    · exact absurd hstep (by simp)
  | writer => exact writerStep_valid h hstep
  | reader i => exact readerStep_valid h hstep

end

theorem circularInt_valid [DecidableEq ι] (hsize : 1 ≤ size) (buff : Buf) {circ : CircularInt ι}
    (hrun : run actionStep (circularIntAllocate buff size) actions = some circ) : circ.Valid size :=
  run_invariant (fun _ action _ h hstep => actionStep_valid action h hstep)
    (valid_circularIntAllocate buff hsize) hrun

/-- **Every interleaving** of reads and writes: the bytes of reads that have returned are a prefix of the bytes
accepted by writes. Then come those of the read that is about to return and those that can still be read. The writer
never is about to store to a cell that a read in progress has still to copy. -/
theorem circularInt_interleavings [DecidableEq ι] (hsize : 1 ≤ size) (buff : Buf)
    {actions : List (Action ι)} {circ : CircularInt ι}
    (hrun : Run.run actionStep (circularIntAllocate buff size) actions = some circ) :
    circ.returned <+: circ.accepted ∧ circ.accepted = circ.returned ++ circ.returning ++ circ.contents ∧
    ∀ i toCopy read out bytes b rest write, circ.readers i = .copy toCopy read out →
      circ.writer = .store bytes (b :: rest) write → ∀ k, out.length + k < toCopy → write ≠ (read + k) % size := by
  have h := circularInt_valid hsize buff hrun
  refine ⟨?_, h.accepted_eq, fun i toCopy read out bytes b rest write hreader hwriter k hk =>
    h.store_ne_copy hreader hwriter hk⟩
  rw [h.accepted_eq, append_assoc]
  exact prefix_append _ _

/-- A first read loads `writePtr` while the write of two bytes is in its loop, and finds nothing. A second
read copies both, with the stores of another write in between. -/
def staleActions : List (Action Bool) :=
  [.callWrite [1, 2], .writer, .writer, .writer, .callRead true 5, .reader true, .writer, .reader true,
    .writer, .writer, .reader true, .reader true, .reader true, .callRead false 5, .reader false,
    .reader false, .reader false, .reader false, .reader false, .callWrite [3], .writer, .writer, .writer,
    .writer, .reader false, .reader false, .writer, .reader false]

theorem circularInt_interleavings_staleActions :
    ∃ circ, Run.run actionStep (circularIntAllocate (fun _ => 0) 4) staleActions = some circ ∧
      circ.returned = [1, 2] ∧ circ.accepted = [1, 2] ++ circ.returning ++ circ.contents := by
  refine (exists_of_any (p := fun circ => circ.returned = [1, 2]) (by decide)).imp fun circ h => ⟨h.1, h.2, ?_⟩
  rw [← h.2]
  exact (circularInt_interleavings (by decide) (fun _ => 0) h.1).2.1

/-- **No call gets stuck**: in every interleaving a call in progress can take its next step, unless it is a
read that waits for the lock. In particular the assertion `toCopy > 0` never fails. -/
theorem circularInt_progress [DecidableEq ι] (hsize : 1 ≤ size) (buff : Buf) {circ : CircularInt ι}
    (hrun : run actionStep (circularIntAllocate buff size) actions = some circ) :
    (circ.writer ≠ .idle → (writerStep circ).isSome = true) ∧
    ∀ i, circ.readers i ≠ .idle → (∀ length, circ.readers i = .acquire length → circ.lockRead = none) →
      (readerStep circ i).isSome = true := by
  have h := circularInt_valid hsize buff hrun
  refine ⟨fun hbusy => ?_, fun i hbusy hwaits => ?_⟩
  · rw [writerStep]
    cases hphase : circ.writer with
    | idle => exact absurd hphase hbusy
    | check bytes write read =>
      simp only
      split_ifs <;> rfl
    | store bytes rest write =>
      cases rest with
      | nil | cons => rfl
    | _ => rfl
  · have hreader := h.readers i
    rw [readerStep]
    cases hphase : circ.readers i with
    | idle => exact absurd hphase hbusy
    | acquire length =>
      rw [hwaits length hphase]
      rfl
    | check length write read =>
      simp only
      split_ifs <;> rfl
    | copy toCopy read out =>
      rw [hphase] at hreader
      simp only
      split_ifs with hmore hpos
      · rfl
      · rfl
      · exact absurd hreader.2.1 hpos
    | _ => rfl

/-- A write and a read are both in their loops. -/
theorem circularInt_progress_staleActions :
    ∃ circ, run actionStep (circularIntAllocate (fun _ => 0) 4) (staleActions.take 23) = some circ ∧
      circ.writer ≠ .idle ∧ circ.readers false ≠ .idle ∧ (writerStep circ).isSome = true ∧
        (readerStep circ false).isSome = true := by
  have hrun : run actionStep (circularIntAllocate (fun _ => 0) 4) (staleActions.take 23) = some _ := rfl
  obtain ⟨hwriter, hreaders⟩ := circularInt_progress (by decide) _ hrun
  exact ⟨_, hrun, nofun, nofun, hwriter nofun, hreaders false nofun nofun⟩

end CoreX.Circ
