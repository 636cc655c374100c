import CoreX.Base.Run
import Mathlib.Data.List.Basic

/-!
# The ids of terminal pairs (`filesystems/dev/pty.rs`)

`ptmxOpen` takes an id in one critical section and puts the pair on the list in another one. The last `ptmxClose` of a
pair gives the id back in one section and takes the pair off the list in another one. In between the id of the pair is
free, or somebody else's again (`ids_of_close`). A step is one critical section; nothing here changes `slaveFds`.
-/

namespace CoreX.Pty

open Function List Option

def ptyMax : Nat := 256

structure PtyPair where
  id : Nat
  masterFds : Nat
  slaveFds : Nat

/-- Where a task is: between calls, or in `ptmxOpen` with the id that it took, or in `ptmxClose` before and behind
`ptyBitmapRemove`. -/
inductive Pc where
  | user
  | opened (id : Nat)
  | removing (pair : Nat)
  | unlinking (pair : Nat)

structure State (τ : Type) where
  ptyBitmap : Nat → Bool
  dsPtyPair : List Nat
  pair : Nat → PtyPair
  allocated : Nat
  pc : τ → Pc

def start (τ : Type) : State τ := ⟨fun _ => false, [], fun _ => ⟨0, 0, 0⟩, 0, fun _ => .user⟩

inductive Action (τ : Type) where
  | ptmxOpen (t : τ)
  | ptmxDuplicate (t : τ) (pair : Nat)
  | ptmxClose (t : τ) (pair : Nat)
  /-- the next section of the call that the task is in -/
  | resume (t : τ)

variable {τ : Type} [DecidableEq τ]

def ptyBitmapDecide (ptyBitmap : Nat → Bool) : Option Nat := (range ptyMax).find? fun i => !ptyBitmap i

def step (s : State τ) : Action τ → Option (State τ)
  | .ptmxOpen t =>
    match s.pc t with
    | .user => (ptyBitmapDecide s.ptyBitmap).map fun id =>
        { s with ptyBitmap := update s.ptyBitmap id true, pc := update s.pc t (.opened id) }
    | _ => none
  | .ptmxDuplicate t p =>
    match s.pc t, (s.pair p).masterFds with
    | .user, n + 1 => some { s with pair := update s.pair p { s.pair p with masterFds := n + 2 } }
    | _, _ => none
  | .ptmxClose t p =>
    match s.pc t, (s.pair p).masterFds with
    | .user, n + 1 =>
      some { s with
        pair := update s.pair p { s.pair p with masterFds := n }
        pc := update s.pc t (if n = 0 ∧ (s.pair p).slaveFds = 0 then .removing p else .user) }
    | _, _ => none
  | .resume t =>
    match s.pc t with
    | .user => none
    | .opened id =>
      some { s with
        dsPtyPair := s.dsPtyPair ++ [s.allocated]
        pair := update s.pair s.allocated ⟨id, 1, 0⟩
        allocated := s.allocated + 1
        pc := update s.pc t .user }
    | .removing p =>
      some { s with ptyBitmap := update s.ptyBitmap (s.pair p).id false, pc := update s.pc t (.unlinking p) }
    | .unlinking p => some { s with dsPtyPair := s.dsPtyPair.filter (· ≠ p), pc := update s.pc t .user }

/-- The ids on the list are distinct and in use. -/
def Distinct (s : State τ) : Prop :=
  (∀ p ∈ s.dsPtyPair, ∀ q ∈ s.dsPtyPair, (s.pair p).id = (s.pair q).id → p = q) ∧
    ∀ p ∈ s.dsPtyPair, s.ptyBitmap (s.pair p).id = true

/-- Every id in use has an owner: a task that opens a pair with it or is about to give it back, or an open pair. -/
structure Owned (s : State τ) (owner : Nat → Option (τ ⊕ Nat)) : Prop where
  free : ∀ id, s.ptyBitmap id = false → owner id = none
  opened : ∀ t id, s.pc t = .opened id → owner id = some (.inl t)
  removing : ∀ t p, s.pc t = .removing p → p < s.allocated ∧ owner (s.pair p).id = some (.inl t)
  live : ∀ p, (s.pair p).masterFds ≠ 0 → p < s.allocated ∧ owner (s.pair p).id = some (.inr p)
  dead : ∀ p ∈ s.dsPtyPair, (s.pair p).masterFds = 0 → ∃ t, s.pc t = .removing p ∨ s.pc t = .unlinking p
  fresh : ∀ p ∈ s.dsPtyPair, p < s.allocated
  slave : ∀ p, (s.pair p).slaveFds = 0

variable {s : State τ} {t : τ} {owner : Nat → Option (τ ⊕ Nat)} {id p n : Nat}

/-! ## What a section keeps

At most one id changes hands. Its owner before is known, so that every other owner keeps their id (`owner_update`). -/

theorem owner_update {α : Type} {owner : Nat → Option α} {i : Nat} {x : α} {y : Option α} (hne : owner id ≠ some x)
    (hi : owner i = some x) : update owner id y i = some x := by
  rw [update_of_ne, hi]
  rintro rfl
  exact hne hi

/-- The task takes an id that is nobody's. -/
theorem Owned.decide (h : Owned s owner) (hpc : s.pc t = .user) (hid : s.ptyBitmap id = false) :
    Owned { s with ptyBitmap := update s.ptyBitmap id true, pc := update s.pc t (.opened id) }
      (update owner id (some (.inl t))) := by
  obtain ⟨hfree, hopened, hrem, hlive, hdead, hfresh, hslave⟩ := h
  have hother {i x} : owner i = some x → update owner id (some (.inl t)) i = some x :=
    owner_update (by simp [hfree id hid])
  refine ⟨fun i hi => ?_, fun u i hu => ?_, fun u q hu => ?_, fun q hq => ?_, fun q hq hzero => ?_, hfresh, hslave⟩
  · grind [update_apply]
  · by_cases hut : u = t
    · grind [update_apply]
    · exact hother (hopened u i (by grind [update_apply]))
  · exact (hrem u q (by grind [update_apply])).imp_right hother
  · exact (hlive q hq).imp_right hother
  · exact (hdead q hq hzero).imp fun u hu => by grind [update_apply]

/-- The task hands its id over to the new pair. -/
theorem Owned.allocate (h : Owned s owner) (hpc : s.pc t = .opened id) :
    Owned { s with
        dsPtyPair := s.dsPtyPair ++ [s.allocated]
        pair := update s.pair s.allocated ⟨id, 1, 0⟩
        allocated := s.allocated + 1
        pc := update s.pc t .user } (update owner id (some (.inr s.allocated))) := by
  obtain ⟨hfree, hopened, hrem, hlive, hdead, hfresh, hslave⟩ := h
  have howner := hopened t id hpc
  have hold {q : Nat} (hq : q < s.allocated) : update s.pair s.allocated ⟨id, 1, 0⟩ q = s.pair q :=
    update_of_ne (Nat.ne_of_lt hq) _ _
  refine ⟨fun i hi => ?_, fun u i hu => ?_, fun u q hu => ?_, fun q hq => ?_, fun q hq hzero => ?_,
    fun q hq => ?_, fun q => ?_⟩
  · grind [update_apply]
  · exact owner_update (by grind [update_apply]) (hopened u i (by grind [update_apply]))
  · obtain ⟨hlt, hq⟩ := hrem u q (by grind [update_apply])
    dsimp only
    rw [hold hlt]
    exact ⟨Nat.lt_succ_of_lt hlt, owner_update (by grind [update_apply]) hq⟩
  · by_cases hnew : q = s.allocated
    · grind [update_apply]
    · obtain ⟨hlt, hq⟩ := hlive q (by grind [update_apply])
      dsimp only
      rw [hold hlt]
      exact ⟨Nat.lt_succ_of_lt hlt, owner_update (by simp [howner]) hq⟩
  · -- the new pair is open, so that a closed one was on the list before
    have hq : q ∈ s.dsPtyPair := by grind [update_apply]
    dsimp only at hzero
    rw [hold (hfresh q hq)] at hzero
    exact (hdead q hq hzero).imp fun u hu => by grind [update_apply]
  · grind
  · grind [update_apply]

omit [DecidableEq τ] in
/-- No id changes hands, and the pair was open before. -/
theorem Owned.duplicate (h : Owned s owner) (hn : (s.pair p).masterFds = n + 1) :
    Owned { s with pair := update s.pair p { s.pair p with masterFds := n + 2 } } owner := by
  obtain ⟨hfree, hopened, hremoving, hlive, hdead, hfresh, hslave⟩ := h
  have hpair (q : Nat) : (update s.pair p { s.pair p with masterFds := n + 2 } q).id = (s.pair q).id ∧
      ((update s.pair p { s.pair p with masterFds := n + 2 } q).masterFds = 0 ↔ (s.pair q).masterFds = 0) := by
    grind [update_apply]
  refine ⟨hfree, hopened, fun u q hu => ?_, fun q hq => ?_, fun q hq hzero => ?_, hfresh, fun q => ?_⟩
  · dsimp only
    rw [(hpair q).1]
    exact hremoving u q hu
  · dsimp only
    rw [(hpair q).1]
    exact hlive q (mt (hpair q).2.2 hq)
  · exact hdead q hq ((hpair q).2.1 hzero)
  · grind [update_apply]

/-- With its last handle the pair hands its id over to the task. -/
theorem Owned.close (h : Owned s owner) (hpc : s.pc t = .user) (hn : (s.pair p).masterFds = n + 1) :
    Owned { s with
        pair := update s.pair p { s.pair p with masterFds := n }
        pc := update s.pc t (if n = 0 ∧ (s.pair p).slaveFds = 0 then .removing p else .user) }
      (if n = 0 then update owner (s.pair p).id (some (.inl t)) else owner) := by
  obtain ⟨hfree, hopened, hrem, hlive, hdead, hfresh, hslave⟩ := h
  obtain ⟨hlt, howner⟩ := hlive p (by omega)
  have hid (q : Nat) : (update s.pair p { s.pair p with masterFds := n } q).id = (s.pair q).id := by
    grind [update_apply]
  have hother {i x} (hx : x ≠ .inr p) (hi : owner i = some x) :
      (if n = 0 then update owner (s.pair p).id (some (.inl t)) else owner) i = some x := by
    split_ifs
    · exact owner_update (by simp [howner, hx.symm]) hi
    · exact hi
  rw [hslave p]
  refine ⟨fun i hi => ?_, fun u i hu => ?_, fun u q hu => ?_, fun q hq => ?_, fun q hq hzero => ?_, hfresh,
    fun q => ?_⟩
  · grind [update_apply]
  · exact hother nofun (hopened u i (by grind [update_apply]))
  · dsimp only
    rw [hid]
    by_cases hut : u = t
    · grind [update_apply]
    · exact (hrem u q (by grind [update_apply])).imp_right (hother nofun)
  · dsimp only
    rw [hid]
    by_cases hqp : q = p
    · grind [update_apply]
    · exact (hlive q (by grind [update_apply])).imp_right (hother (by simpa using hqp))
  · by_cases hqp : q = p
    · exact ⟨t, .inl (by grind [update_apply])⟩
    · exact (hdead q hq (by grind [update_apply])).imp fun u hu => by grind [update_apply]
  · grind [update_apply]

/-- The id of the task is nobody's from now on. -/
theorem Owned.remove (h : Owned s owner) (hpc : s.pc t = .removing p) :
    Owned { s with ptyBitmap := update s.ptyBitmap (s.pair p).id false, pc := update s.pc t (.unlinking p) }
      (update owner (s.pair p).id none) := by
  obtain ⟨hfree, hopened, hrem, hlive, hdead, hfresh, hslave⟩ := h
  have howner := (hrem t p hpc).2
  have hother {i x} (hx : x ≠ .inl t) : owner i = some x → update owner (s.pair p).id none i = some x :=
    owner_update (by simp [howner, hx.symm])
  refine ⟨fun i hi => ?_, fun u i hu => ?_, fun u q hu => ?_, fun q hq => ?_, fun q hq hzero => ?_, hfresh, hslave⟩
  · grind [update_apply]
  · exact hother (by grind [update_apply]) (hopened u i (by grind [update_apply]))
  · exact (hrem u q (by grind [update_apply])).imp_right (hother (by grind [update_apply]))
  · exact (hlive q hq).imp_right (hother nofun)
  · exact (hdead q hq hzero).imp fun u hu => by grind [update_apply]

/-- No id changes hands, and the pair is on the list no longer. -/
theorem Owned.unlink (h : Owned s owner) (hpc : s.pc t = .unlinking p) :
    Owned { s with dsPtyPair := s.dsPtyPair.filter (· ≠ p), pc := update s.pc t .user } owner := by
  obtain ⟨hfree, hopened, hrem, hlive, hdead, hfresh, hslave⟩ := h
  refine ⟨hfree, fun u i hu => hopened u i (by grind [update_apply]),
    fun u q hu => hrem u q (by grind [update_apply]), hlive, fun q hq hzero => ?_,
    fun q hq => hfresh q (mem_of_mem_filter hq), hslave⟩
  exact (hdead q (mem_of_mem_filter hq) hzero).imp fun u hu => by grind [update_apply]

theorem owned_step (s : State τ) (a : Action τ) (s' : State τ) (h : ∃ owner, Owned s owner)
    (hstep : step s a = some s') : ∃ owner, Owned s' owner := by
  obtain ⟨owner, h⟩ := h
  cases a with
  | ptmxOpen t =>
    simp only [step] at hstep
    split at hstep
    case h_1 hpc =>
      obtain ⟨id, hid, rfl⟩ := map_eq_some_iff.1 hstep
      exact ⟨_, h.decide hpc (by simpa using find?_some hid)⟩
    case h_2 => cases hstep
  | ptmxDuplicate t p =>
    simp only [step] at hstep
    split at hstep
    case h_1 n hpc hn =>
      obtain rfl := some.inj hstep
      exact ⟨_, h.duplicate hn⟩
    case h_2 => cases hstep
  | ptmxClose t p =>
    simp only [step] at hstep
    split at hstep
    case h_1 n hpc hn =>
      obtain rfl := some.inj hstep
      exact ⟨_, h.close hpc hn⟩
    case h_2 => cases hstep
  | resume t =>
    simp only [step] at hstep
    split at hstep
    case h_1 => cases hstep
    case h_2 id hpc =>
      obtain rfl := some.inj hstep
      exact ⟨_, h.allocate hpc⟩
    case h_3 p hpc =>
      obtain rfl := some.inj hstep
      exact ⟨_, h.remove hpc⟩
    case h_4 p hpc =>
      obtain rfl := some.inj hstep
      exact ⟨_, h.unlink hpc⟩

/-- **The ids of the pairs.** In every interleaving, whenever no `ptmxClose` is between its two sections of
`LOCK_PTY_GLOBAL`, the ids on the list are distinct and in use. -/
theorem ids_distinct (actions : List (Action τ)) (hrun : Run.run step (start τ) actions = some s)
    (hnone : ∀ t p, s.pc t ≠ .unlinking p) : Distinct s := by
  have hstart : ∃ owner, Owned (start τ) owner :=
    ⟨fun _ => none, fun _ _ => rfl, nofun, nofun, fun _ h => absurd rfl h, nofun, nofun, fun _ => rfl⟩
  obtain ⟨owner, h⟩ := Run.run_invariant owned_step hstart hrun
  have howner : ∀ p ∈ s.dsPtyPair, owner (s.pair p).id = some (.inr p) ∨
      ∃ t, s.pc t = .removing p ∧ owner (s.pair p).id = some (.inl t) := by
    intro p hp
    by_cases hzero : (s.pair p).masterFds = 0
    · obtain ⟨t, ht | ht⟩ := h.dead p hp hzero
      · exact .inr ⟨t, ht, (h.removing t p ht).2⟩
      · exact absurd ht (hnone t p)
    · exact .inl (h.live p hzero).2
  refine ⟨fun p hp q hq hid => ?_, fun p hp => ?_⟩
  · -- an id has one owner, who knows the pair
    rcases howner p hp with hp | ⟨t, ht, hp⟩ <;> rcases howner q hq with hq | ⟨u, hu, hq⟩ <;> rw [hid, hq] at hp
    · exact (Sum.inr.inj (some.inj hp)).symm
    · cases hp
    · cases hp
    · obtain rfl := Sum.inl.inj (some.inj hp)
      exact Pc.removing.inj (ht.symm.trans hu)
  · by_contra hfree
    have hnobody := h.free _ (Bool.not_eq_true _ ▸ hfree)
    rcases howner p hp with hp | ⟨t, -, hp⟩ <;> simp [hnobody] at hp

/-- Two pairs are opened at once, one of them is duplicated and closed once, and another one, with the id 1, is closed
altogether. The next pair gets that id again. -/
theorem ids_distinct_closed : ∃ s, Run.run step (start Bool)
        [.ptmxOpen true, .ptmxOpen false, .resume false, .resume true, .ptmxDuplicate true 1, .ptmxClose false 1,
          .ptmxOpen true, .resume true, .ptmxClose false 0, .resume false, .resume false, .ptmxOpen true,
          .resume true] = some s ∧
      s.dsPtyPair.map (fun p => (p, (s.pair p).id)) = [(1, 0), (2, 2), (3, 1)] ∧ Distinct s := by
  refine ⟨_, rfl, rfl, ids_distinct [.ptmxOpen true, .ptmxOpen false, .resume false, .resume true,
    .ptmxDuplicate true 1, .ptmxClose false 1, .ptmxOpen true, .resume true, .ptmxClose false 0, .resume false,
    .resume false, .ptmxOpen true, .resume true] rfl fun t p => ?_⟩
  cases t <;> nofun

/-- One task closes the only pair and has given the id back. Another one opens a pair, which gets the same id: both pairs
are on the list. -/
theorem ids_of_close :
    (Run.run step (start Bool) [.ptmxOpen true, .resume true, .ptmxClose true 0, .resume true, .ptmxOpen false,
      .resume false]).map (fun s => s.dsPtyPair.map fun p => (p, (s.pair p).id)) = some [(0, 0), (1, 0)] := by
  decide +kernel

end CoreX.Pty
