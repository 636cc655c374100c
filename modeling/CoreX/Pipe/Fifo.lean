import Mathlib.Data.List.Basic
import CoreX.Pipe.Model

/-!
# A pipe is a queue, and nobody waits in vain

Whatever order the threads get the mutex in, the bytes that reads have returned and those in the buffer are together
the bytes that writes have appended. A thread that waits without a notification has a reason to: every step that ends
the reason notifies (`PipeState.Valid`).
-/

namespace CoreX.Pipe

open Function List Nat

variable {τ : Type} {s s' : PipeState τ} {t u : τ} {notified : Bool} {len c : Nat}

structure WriteResult (data : Bytes) (pipe : PipeInfo) (written : Nat) (notify : Bool)
    (ending : WriteEnd) (pipe' : PipeInfo) (written' : Nat) (notify' : Bool) : Prop where
  le : written ≤ written'
  le_length : written' ≤ data.length
  buf : pipe'.buf = pipe.buf ++ (data.drop written).take (written' - written)
  readFds : pipe'.readFds = pipe.readFds
  writeFds : pipe'.writeFds = pipe.writeFds
  length_le : pipe.buf.length ≤ pipeBuff → pipe'.buf.length ≤ pipeBuff
  notify_eq : notify' = (notify || decide (written < written'))
  wait : ending = .wait → pipeBuff ≤ pipe'.buf.length ∧ 0 < pipe'.readFds
  done : ending = .done → written' = data.length

/-- Every iteration of the loop writes a byte at least, so that the fuel is enough. -/
theorem writeLoop_result {data : Bytes} {fuel written : Nat} (pipe : PipeInfo) (notify : Bool)
    (hle : written ≤ data.length) (hfuel : data.length < fuel + written) : ∃ ending pipe' written' notify',
      writeLoop data fuel pipe written notify = some (ending, pipe', written', notify') ∧
      WriteResult data pipe written notify ending pipe' written' notify' := by
  induction fuel generalizing pipe written notify with
  | zero => omega
  | succ fuel ih =>
    rw [writeLoop]
    by_cases hmore : written < data.length
    · rw [if_pos hmore]
      by_cases hfull : pipeBuff ≤ pipe.buf.length
      · refine ⟨_, pipe, written, notify, if_pos hfull, Nat.le_refl _, hle, by simp, rfl, rfl, id, by simp, ?_, ?_⟩
        · intro hwait
          by_cases hzero : pipe.readFds = 0
          · rw [if_pos hzero] at hwait
            cases hwait
          · exact ⟨hfull, Nat.pos_of_ne_zero hzero⟩
        · intro hdone
          split_ifs at hdone
      · rw [if_neg hfull]
        simp only
        generalize htoWrite : min (data.length - written) (pipeBuff - pipe.buf.length) = toWrite
        obtain ⟨ending, pipe', written', notify', hloop, h⟩ :=
          ih ⟨pipe.buf ++ (data.drop written).take toWrite, pipe.readFds, pipe.writeFds⟩ true
            (show written + toWrite ≤ data.length by omega) (by omega)
        have hle' := h.le
        refine ⟨ending, pipe', written', notify', hloop, by omega, h.le_length, ?_, h.readFds, h.writeFds,
          fun _ => h.length_le ?_, ?_, h.wait, h.done⟩
        · -- the chunk of this iteration and those of the later ones
          have hadd : written' - written = toWrite + (written' - (written + toWrite)) := by omega
          rw [h.buf, append_assoc, hadd, take_add, drop_drop]
        · rw [length_append, length_take, length_drop]
          omega
        · rw [h.notify_eq, Bool.true_or, decide_eq_true (by omega), Bool.or_true]
    · exact ⟨.done, pipe, written, notify, if_neg hmore, Nat.le_refl _, hle, by simp, rfl, rfl, id, by simp,
        (nomatch ·), fun _ => by omega⟩

def Thread.call? : Thread → Option Nat
  | .writing call _ _ _ => some call
  | _ => none

def PipeState.bytesOf (s : PipeState τ) (call : Nat) : Bytes :=
  (s.appended.filter fun p => p.1 = call).map Prod.snd

/-- A call of `write` that has not returned, and that only thread `t` is in: it has appended the first bytes
of its buffer. -/
structure PipeState.Owns (s : PipeState τ) (t : τ) (call : Nat) (data : Bytes) (written : Nat) : Prop where
  lt : call < s.calls
  le : written ≤ data.length
  bytesOf : s.bytesOf call = data.take written
  only : ∀ u, u ≠ t → (s.threads u).call? ≠ some call
  open' : ∀ r ∈ s.returned, r.1 ≠ call

structure PipeState.Valid (s : PipeState τ) : Prop where
  length_le : s.pipe.buf.length ≤ pipeBuff
  appended_eq : s.appended.map Prod.snd = s.taken ++ s.pipe.buf
  appended_lt : ∀ p ∈ s.appended, p.1 < s.calls
  reading : ∀ t len, s.threads t = .reading len false → s.pipe.buf = [] ∧ 0 < s.pipe.writeFds
  writing : ∀ t call data written, s.threads t = .writing call data written false →
    pipeBuff ≤ s.pipe.buf.length ∧ 0 < s.pipe.readFds
  owns : ∀ t call data written notified, s.threads t = .writing call data written notified →
    s.Owns t call data written
  returned : ∀ r ∈ s.returned, r.1 < s.calls ∧ r.2.2 = r.2.1.length ∧ s.bytesOf r.1 = r.2.1

theorem valid_init : (PipeState.init τ).Valid where
  length_le := zero_le _
  appended_eq := rfl
  appended_lt := fun _ h => by cases h
  reading := fun _ _ h => by cases h
  writing := fun _ _ _ _ h => by cases h
  owns := fun _ _ _ _ _ h => by cases h
  returned := fun _ h => by cases h

/-! ## Notifications -/

@[simp] theorem notifyRead_ne_reading (thread : Thread) (len : Nat) : thread.notifyRead ≠ .reading len false := by
  cases thread <;> simp [Thread.notifyRead]

variable {thread : Thread}

@[simp] theorem notifyRead_eq_writing {call written : Nat} {data : Bytes} :
    thread.notifyRead = .writing call data written notified ↔ thread = .writing call data written notified := by
  cases thread <;> simp [Thread.notifyRead]

@[simp] theorem notifyWrite_ne_writing (thread : Thread) (call written : Nat) (data : Bytes) :
    thread.notifyWrite ≠ .writing call data written false := by
  cases thread <;> simp [Thread.notifyWrite]

@[simp] theorem notifyWrite_eq_reading :
    thread.notifyWrite = .reading len notified ↔ thread = .reading len notified := by
  cases thread <;> simp [Thread.notifyWrite]

theorem exists_of_notifyWrite_eq_writing {call written : Nat} {data : Bytes}
    (h : thread.notifyWrite = .writing call data written notified) :
    ∃ notified', thread = .writing call data written notified' := by
  cases thread with
  | idle | reading => cases h
  | writing c d w n => cases h; exact ⟨n, rfl⟩

@[simp] theorem call?_notifyRead (thread : Thread) : thread.notifyRead.call? = thread.call? := by
  cases thread <;> rfl

/-! ## Steps -/

theorem PipeState.Valid.of_same_log (h : s.Valid) (hcalls : s'.calls = s.calls)
    (happ : s'.appended = s.appended) (hret : s'.returned = s.returned)
    (hthreads : ∀ u call data written notified, s'.threads u = .writing call data written notified →
      ∃ notified', s.threads u = .writing call data written notified')
    (hlength : s'.pipe.buf.length ≤ pipeBuff) (heq : s.taken ++ s.pipe.buf = s'.taken ++ s'.pipe.buf)
    (hreading : ∀ u len, s'.threads u = .reading len false → s'.pipe.buf = [] ∧ 0 < s'.pipe.writeFds)
    (hwriting : ∀ u call data written, s'.threads u = .writing call data written false →
      pipeBuff ≤ s'.pipe.buf.length ∧ 0 < s'.pipe.readFds) : s'.Valid := by
  have hbytes : ∀ call, s'.bytesOf call = s.bytesOf call := fun call => by
    rw [PipeState.bytesOf, happ, PipeState.bytesOf]
  have hcall : ∀ u call, (s'.threads u).call? = some call → (s.threads u).call? = some call := by
    intro u call hu
    cases hthread : s'.threads u with
    | idle | reading => rw [hthread] at hu; cases hu
    | writing c data written notified =>
      obtain ⟨notified', hold⟩ := hthreads u c data written notified hthread
      rw [hthread] at hu
      rw [hold]
      exact hu
  refine ⟨hlength, ?_, ?_, hreading, hwriting, ?_, ?_⟩
  · rw [happ, h.appended_eq, heq]
  · rw [happ, hcalls]
    exact h.appended_lt
  · intro u call data written notified hu
    obtain ⟨notified', hold⟩ := hthreads u call data written notified hu
    have howns := h.owns u call data written notified' hold
    refine ⟨hcalls ▸ howns.lt, howns.le, (hbytes call).trans howns.bytesOf, fun v hv hc => ?_, ?_⟩
    · exact howns.only v hv (hcall v call hc)
    · rw [hret]
      exact howns.open'
  · rw [hret]
    intro r hr
    obtain ⟨hlt, hn, hdata⟩ := h.returned r hr
    exact ⟨hcalls ▸ hlt, hn, (hbytes r.1).trans hdata⟩

theorem bytesOf_append {call : Nat} {chunk : Bytes} (c : Nat)
    (happ : s'.appended = s.appended ++ chunk.map (call, ·)) :
    s'.bytesOf c = s.bytesOf c ++ if c = call then chunk else [] := by
  rw [PipeState.bytesOf, happ, filter_append, map_append, ← PipeState.bytesOf]
  congr 1
  by_cases hc : c = call
  · subst hc
    rw [if_pos rfl, filter_eq_self.2 (by simp), map_map]
    exact map_id _
  · rw [if_neg hc, filter_eq_nil_iff.2 (by simpa using fun _ _ => Ne.symm hc), map_nil]

theorem PipeState.Valid.newCall (h : s.Valid) (t : τ) (data : Bytes) :
    ({ s with calls := s.calls + 1 } : PipeState τ).Valid ∧
      ({ s with calls := s.calls + 1 } : PipeState τ).Owns t s.calls data 0 := by
  have hnone : s.bytesOf s.calls = [] := by
    rw [PipeState.bytesOf, filter_eq_nil_iff.2, map_nil]
    intro p hp
    have := h.appended_lt p hp
    simp only [decide_eq_true_eq]
    omega
  refine ⟨⟨h.length_le, h.appended_eq, fun p hp => lt_succ_of_lt (h.appended_lt p hp), h.reading, h.writing,
    fun u c d w n hu => ?_, fun r hr => ?_⟩, lt_succ_self _, zero_le _, hnone, fun u hu hc => ?_, ?_⟩
  · obtain ⟨hlt, hle, hbytes, honly, hopen⟩ := h.owns u c d w n hu
    exact ⟨lt_succ_of_lt hlt, hle, hbytes, honly, hopen⟩
  · obtain ⟨hlt, hn, hdata⟩ := h.returned r hr
    exact ⟨lt_succ_of_lt hlt, hn, hdata⟩
  · cases hthread : s.threads u with
    | idle | reading => simp [hthread, Thread.call?] at hc
    | writing c d w n =>
      have hlt := (h.owns u c d w n hthread).lt
      simp only [hthread, Thread.call?, Option.some.injEq] at hc
      omega
  · intro r hr
    have := (h.returned r hr).1
    omega

/-- What a stay of `write` in the mutex changes: the buffer and the history of the pipe, its own thread, and
the readers it notifies. -/
structure Entered (s s' : PipeState τ) (t : τ) (call : Nat) (data : Bytes) (written : Nat)
    (ending : WriteEnd) (written' : Nat) (notify : Bool) : Prop where
  result : WriteResult data s.pipe written false ending s'.pipe written' notify
  appended : s'.appended = s.appended ++ ((data.drop written).take (written' - written)).map (call, ·)
  returned : s'.returned = if ending = .done then s.returned ++ [(call, data, written')] else s.returned
  calls : s'.calls = s.calls
  taken : s'.taken = s.taken
  self : s'.threads t = if ending = .wait then .writing call data written' false else .idle
  others : ∀ u, u ≠ t → s'.threads u = if notify then (s.threads u).notifyRead else s.threads u

namespace Entered

variable {call written written' : Nat} {data : Bytes} {ending : WriteEnd} {notify : Bool}
  (e : Entered s s' t call data written ending written' notify)
include e

theorem bytesOf_of_ne (hc : c ≠ call) : s'.bytesOf c = s.bytesOf c := by
  rw [bytesOf_append c e.appended, if_neg hc, append_nil]

theorem bytesOf_self (howns : s.Owns t call data written) : s'.bytesOf call = data.take written' := by
  have hle := e.result.le
  rw [bytesOf_append call e.appended, if_pos rfl, howns.bytesOf, ← take_add]
  congr 1
  omega

theorem writing_iff (hu : u ≠ t) (c : Nat) (d : Bytes) (w : Nat) (n : Bool) :
    s'.threads u = .writing c d w n ↔ s.threads u = .writing c d w n := by
  rw [e.others u hu]
  split_ifs
  · exact notifyRead_eq_writing
  · exact Iff.rfl

theorem call?_eq (hu : u ≠ t) : (s'.threads u).call? = (s.threads u).call? := by
  rw [e.others u hu]
  split_ifs
  · exact call?_notifyRead _
  · rfl

/-- A reader that still waits was not notified, so nothing was appended. -/
theorem reading (h : s.Valid) (u : τ) (len : Nat) (hu : s'.threads u = .reading len false) :
    s'.pipe.buf = [] ∧ 0 < s'.pipe.writeFds := by
  by_cases hut : u = t
  · rw [hut, e.self] at hu
    split_ifs at hu
  rw [e.others u hut] at hu
  cases notify with
  | true =>
    exact absurd hu (notifyRead_ne_reading _ _)
  | false =>
    have hsame : ¬ written < written' := by simpa using e.result.notify_eq
    obtain ⟨hempty, hfds⟩ := h.reading u len hu
    rw [e.result.buf, e.result.writeFds, show written' - written = 0 by omega, take_zero, append_nil]
    exact ⟨hempty, hfds⟩

theorem writing (h : s.Valid) (u : τ) (c : Nat) (d : Bytes) (w : Nat)
    (hu : s'.threads u = .writing c d w false) : pipeBuff ≤ s'.pipe.buf.length ∧ 0 < s'.pipe.readFds := by
  by_cases hut : u = t
  · rw [hut, e.self] at hu
    split_ifs at hu with hwait
    exact e.result.wait hwait
  · obtain ⟨hfull, hfds⟩ := h.writing u c d w ((e.writing_iff hut c d w false).1 hu)
    rw [e.result.buf, e.result.readFds, length_append]
    exact ⟨by omega, hfds⟩

theorem owns_self (howns : s.Owns t call data written) (hwait : ending = .wait) : s'.Owns t call data written' := by
  refine ⟨e.calls ▸ howns.lt, e.result.le_length, e.bytesOf_self howns, fun v hv hc => ?_, ?_⟩
  · exact howns.only v hv (e.call?_eq hv ▸ hc)
  · rw [e.returned, if_neg (by rw [hwait]; decide)]
    exact howns.open'

theorem owns_of_ne {w : Nat} {d : Bytes} (hold : s.Owns u c d w) (hne : c ≠ call) : s'.Owns u c d w := by
  refine ⟨e.calls ▸ hold.lt, hold.le, (e.bytesOf_of_ne hne).trans hold.bytesOf, fun v hv hc => ?_, ?_⟩
  · by_cases hvt : v = t
    · rw [hvt, e.self] at hc
      split_ifs at hc
      · exact hne (Option.some.inj hc).symm
      · cases hc
    · exact hold.only v hv (e.call?_eq hvt ▸ hc)
  · rw [e.returned]
    intro r hr
    split_ifs at hr
    · rcases mem_append.1 hr with hr | hr
      · exact hold.open' r hr
      · rw [mem_singleton.1 hr]
        exact hne.symm
    · exact hold.open' r hr

theorem owns (h : s.Valid) (howns : s.Owns t call data written) (u : τ) (c : Nat) (d : Bytes) (w : Nat)
    (n : Bool) (hu : s'.threads u = .writing c d w n) : s'.Owns u c d w := by
  by_cases hut : u = t
  · subst hut
    rw [e.self] at hu
    split_ifs at hu with hwait
    cases hu
    exact e.owns_self howns hwait
  · have hold := (e.writing_iff hut c d w n).1 hu
    have hne : c ≠ call := by
      intro hc
      apply howns.only u hut
      rw [hold, hc]
      rfl
    exact e.owns_of_ne (h.owns u c d w n hold) hne

theorem returned_eq (h : s.Valid) (howns : s.Owns t call data written) :
    ∀ r ∈ s'.returned, r.1 < s'.calls ∧ r.2.2 = r.2.1.length ∧ s'.bytesOf r.1 = r.2.1 := by
  have holds : ∀ r ∈ s.returned, r.1 < s'.calls ∧ r.2.2 = r.2.1.length ∧ s'.bytesOf r.1 = r.2.1 := by
    intro r hr
    obtain ⟨hlt, hn, hdata⟩ := h.returned r hr
    exact ⟨e.calls ▸ hlt, hn, (e.bytesOf_of_ne (howns.open' r hr)).trans hdata⟩
  rw [e.returned]
  intro r hr
  split_ifs at hr with hdone
  · rcases mem_append.1 hr with hr | hr
    · exact holds r hr
    · have hall := e.result.done hdone
      rw [mem_singleton.1 hr]
      refine ⟨e.calls ▸ howns.lt, hall, (e.bytesOf_self howns).trans ?_⟩
      rw [hall, take_length]
  · exact holds r hr

end Entered

variable [DecidableEq τ] {threads : τ → Thread}

theorem eq_of_update {x : Thread} (h : update threads t thread u = x) (hne : thread ≠ x) : threads u = x := by
  by_cases hu : u = t
  · rw [hu, update_self] at h
    exact absurd h hne
  · rwa [update_of_ne hu] at h

theorem PipeState.Valid.enterRead (h : s.Valid) (t : τ) (len : Nat) : (enterRead s t len).Valid := by
  by_cases hempty : s.pipe.buf = []
  · rw [Pipe.enterRead, readBody, if_pos hempty]
    by_cases hfds : s.pipe.writeFds = 0
    · rw [if_pos hfds]
      exact h.of_same_log rfl rfl rfl (fun u call data written notified hu => ⟨_, eq_of_update hu nofun⟩)
        h.length_le rfl (fun u len' hu => h.reading u len' (eq_of_update hu nofun))
        fun u call data written hu => h.writing u call data written (eq_of_update hu nofun)
    · rw [if_neg hfds]
      exact h.of_same_log rfl rfl rfl (fun u call data written notified hu => ⟨_, eq_of_update hu nofun⟩)
        h.length_le rfl (fun _ _ _ => ⟨hempty, Nat.pos_of_ne_zero hfds⟩)
        fun u call data written hu => h.writing u call data written (eq_of_update hu nofun)
  · rw [Pipe.enterRead, readBody, if_neg hempty]
    refine h.of_same_log rfl rfl rfl ?_ ?_ ?_ ?_ ?_
    · intro u call data written notified hu
      change update (fun u => (s.threads u).notifyWrite) t .idle u = _ at hu
      have hold := eq_of_update hu nofun
      exact exists_of_notifyWrite_eq_writing hold
    · rw [length_drop]
      have := h.length_le
      omega
    · rw [append_assoc, take_append_drop]
    · intro u len' hu
      change update (fun u => (s.threads u).notifyWrite) t .idle u = _ at hu
      have hold := eq_of_update hu nofun
      exact absurd (h.reading u len' (notifyWrite_eq_reading.1 hold)).1 hempty
    · intro u call data written hu
      change update (fun u => (s.threads u).notifyWrite) t .idle u = _ at hu
      have hold := eq_of_update hu nofun
      exact absurd hold (notifyWrite_ne_writing _ _ _ _)

theorem enterWrite_entered {call written : Nat} {data : Bytes} (hle : written ≤ data.length)
    (hstep : enterWrite s t call data written = some s') :
    ∃ ending written' notify, Entered s s' t call data written ending written' notify := by
  obtain ⟨ending, pipe', written', notify, hloop, hresult⟩ :=
    writeLoop_result s.pipe false hle (show data.length < data.length + 1 + written by omega)
  rw [Pipe.enterWrite, hloop, Option.map_some, Option.some.injEq] at hstep
  subst hstep
  refine ⟨ending, written', notify, hresult, rfl, rfl, rfl, rfl, update_self .., fun u hu => ?_⟩
  simp only [update_of_ne hu]
  split_ifs <;> rfl

theorem PipeState.Valid.enterWrite (h : s.Valid) {call written : Nat} {data : Bytes}
    (howns : s.Owns t call data written) (hstep : enterWrite s t call data written = some s') : s'.Valid := by
  obtain ⟨ending, written', notify, e⟩ := enterWrite_entered howns.le hstep
  refine ⟨e.result.length_le h.length_le, ?_, ?_, e.reading h, e.writing h, e.owns h howns, e.returned_eq h howns⟩
  · rw [e.appended, map_append, h.appended_eq, e.taken, e.result.buf, append_assoc, map_map]
    congr 2
    exact map_id _
  rw [e.appended, e.calls]
  intro p hp
  rcases mem_append.1 hp with hp | hp
  · exact h.appended_lt p hp
  · obtain ⟨b, -, rfl⟩ := mem_map.1 hp
    exact howns.lt

theorem PipeState.Valid.close (h : s.Valid) (write : Bool) (hstep : actionStep s (.close write) = some s') :
    s'.Valid := by
  cases hstep
  cases write with
  | true =>
    exact h.of_same_log rfl rfl rfl (fun u c d w n hu => ⟨n, notifyRead_eq_writing.1 hu⟩) h.length_le rfl
      (fun u len hu => absurd hu (notifyRead_ne_reading _ _))
      fun u c d w hu => h.writing u c d w (notifyRead_eq_writing.1 hu)
  | false =>
    exact h.of_same_log rfl rfl rfl (fun u c d w n hu => exists_of_notifyWrite_eq_writing hu) h.length_le rfl
      (fun u len hu => h.reading u len (notifyWrite_eq_reading.1 hu))
      fun u c d w hu => absurd hu (notifyWrite_ne_writing _ _ _ _)

theorem PipeState.Valid.spurious (h : s.Valid) (hstep : actionStep s (.spurious t) = some s') : s'.Valid := by
  cases hthread : s.threads t with
  | idle => simp [actionStep, hthread] at hstep
  | reading len notified =>
    simp only [actionStep, hthread, Option.some.injEq] at hstep
    subst hstep
    exact h.of_same_log rfl rfl rfl (fun u c d w n hu => ⟨n, eq_of_update hu nofun⟩) h.length_le rfl
      (fun u len hu => h.reading u len (eq_of_update hu nofun)) fun u c d w hu => h.writing u c d w (eq_of_update hu nofun)
  | writing call data written notified =>
    simp only [actionStep, hthread, Option.some.injEq] at hstep
    subst hstep
    refine h.of_same_log rfl rfl rfl (fun u c d w n hu => ?_) h.length_le rfl
      (fun u len hu => h.reading u len (eq_of_update hu nofun)) fun u c d w hu => h.writing u c d w (eq_of_update hu nofun)
    by_cases hut : u = t
    · subst hut
      simp only [update_self] at hu
      cases hu
      exact ⟨notified, hthread⟩
    · simp only [update_of_ne hut] at hu
      exact ⟨n, hu⟩

theorem valid_actionStep (s : PipeState τ) (a : Action τ) (s' : PipeState τ) (h : s.Valid)
    (hstep : actionStep s a = some s') : s'.Valid := by
  cases a with
  | read t len =>
    cases hthread : s.threads t with
    | idle =>
      simp only [actionStep, hthread, Option.some.injEq] at hstep
      exact hstep ▸ h.enterRead t len
    | reading | writing => simp [actionStep, hthread] at hstep
  | write t data =>
    cases hthread : s.threads t with
    | idle =>
      simp only [actionStep, hthread] at hstep
      obtain ⟨hvalid, howns⟩ := h.newCall t data
      exact hvalid.enterWrite howns hstep
    | reading | writing => simp [actionStep, hthread] at hstep
  | close write => exact h.close write hstep
  | resume t =>
    cases hthread : s.threads t with
    | idle => simp [actionStep, hthread] at hstep
    | reading len notified =>
      cases notified with
      | true =>
        simp only [actionStep, hthread, Option.some.injEq] at hstep
        exact hstep ▸ h.enterRead t len
      | false => simp [actionStep, hthread] at hstep
    | writing call data written notified =>
      cases notified with
      | true =>
        simp only [actionStep, hthread] at hstep
        exact h.enterWrite (h.owns t call data written true hthread) hstep
      | false => simp [actionStep, hthread] at hstep
  | spurious t => exact h.spurious hstep

/-! ## Runs -/

/-- **A pipe is a bounded queue without lost notifications**, over every interleaving of its calls. Reads return the
first bytes that writes have appended. A write that returned `Ok(n)` has appended the `n` bytes of its buffer. A
reader waits without a notification only while the buffer is empty and the write end is open, a writer only while it
is full and the read end is open. -/
theorem pipe_fifo {as : List (Action τ)} (hrun : Run.run actionStep (PipeState.init τ) as = some s) :
    s.taken <+: s.appended.map Prod.snd ∧ s.pipe.buf.length ≤ 65536 ∧
      (∀ call data n, (call, data, n) ∈ s.returned → n = data.length ∧ s.bytesOf call = data) ∧
      (∀ t len, s.threads t = .reading len false → s.pipe.buf = [] ∧ 0 < s.pipe.writeFds) ∧
      ∀ t call data written, s.threads t = .writing call data written false →
        s.pipe.buf.length = 65536 ∧ 0 < s.pipe.readFds := by
  have h : s.Valid := Run.run_invariant valid_actionStep valid_init hrun
  refine ⟨⟨s.pipe.buf, h.appended_eq.symm⟩, h.length_le, fun call data n hr => (h.returned _ hr).2, h.reading, ?_⟩
  intro t call data written ht
  obtain ⟨hfull, hfds⟩ := h.writing t call data written ht
  exact ⟨Nat.le_antisymm h.length_le hfull, hfds⟩

/-- A reader that waits for a write. -/
theorem pipe_fifo_waiting : ∃ s : PipeState Bool,
      Run.run actionStep (PipeState.init Bool) [.read true 5, .write false [1, 2, 3], .resume true, .read false 4] =
        some s ∧ s.taken = [1, 2, 3] ∧ s.pipe.buf = [] ∧ 0 < s.pipe.writeFds := by
  have hrun : Run.run actionStep (PipeState.init Bool)
      [.read true 5, .write false [1, 2, 3], .resume true, .read false 4] = some _ := rfl
  exact ⟨_, hrun, rfl, (pipe_fifo hrun).2.2.2.1 false 4 rfl⟩

end CoreX.Pipe
