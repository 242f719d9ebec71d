import Eaf.Powerpack.RingEntries

/-!
# What a ring buffer is for

The users of a ring buffer see a queue.  A reserved entry is written by its
producer, then committed, then read by a consumer, and the consumers get the
entries in the order in which they were reserved.  `QueueStep` says what each
call returns and what it does to the queue.
-/

namespace Eaf
namespace Powerpack

/-- A token that a caller holds, with the length of its data. -/
structure HeldToken where
  token : Nat
  len : Nat
  deriving DecidableEq, Repr

/-- The memory of a held token. -/
def HeldToken.region (h : HeldToken) : Region :=
  ⟨nodeOf h.token, eafRingbufferNodeCost h.len⟩

/-- The number of words for the data of a held token. -/
def HeldToken.room (h : HeldToken) : Nat :=
  (eafRingbufferNodeCost h.len - nodeHeader) / wordSize

/-- What the users of a ring buffer do. -/
inductive RingOp
  | reserve (len : Nat) (flags : UInt32)
  | consume
  | commit (held : HeldToken) (flags : UInt32)
  /-- the caller writes a word of the data of its token -/
  | store (held : HeldToken) (i value : Nat)
  deriving DecidableEq, Repr

/-- What they get. -/
inductive RingResult
  /-- a token with the length that it holds, or the null pointer -/
  | token (t : Option HeldToken)
  | code (c : Int)
  | done
  deriving DecidableEq, Repr

namespace RingEntry

/-- The entry in another state. -/
def inState (e : RingEntry) (s : RingState) : RingEntry := { e with state := s }

/-- The entry with a word of its data changed. -/
def withWord (e : RingEntry) (i value : Nat) : RingEntry :=
  { e with words := e.words.set i value }

/-- What a caller has of the entry. -/
def held (e : RingEntry) : HeldToken := ⟨e.token, e.len⟩

@[simp] theorem inState_node (e : RingEntry) (s : RingState) :
    (e.inState s).node = e.node := rfl

@[simp] theorem inState_held (e : RingEntry) (s : RingState) :
    (e.inState s).held = e.held := rfl

@[simp] theorem inState_state (e : RingEntry) (s : RingState) :
    (e.inState s).state = s := rfl

@[simp] theorem held_token (e : RingEntry) : e.held.token = e.token := rfl

theorem nodeOf_token (e : RingEntry) : nodeOf e.token = e.node :=
  Nat.add_sub_cancel ..

theorem held_region (e : RingEntry) : e.held.region = e.region := by
  unfold HeldToken.region region
  rw [held_token, nodeOf_token]
  rfl

end RingEntry

/-- One call on the queue. -/
inductive QueueStep : List RingEntry → RingOp → RingResult → List RingEntry → Prop
  /-- a new entry, which gets an address that no other one has -/
  | reserved {es : List RingEntry} {e : RingEntry} {flags : UInt32}
      (hstate : e.state = .writing) (hnull : e.token ≠ 0)
      (hnew : ∀ x ∈ es, x.token ≠ e.token) :
      QueueStep es (.reserve e.len flags) (.token (some e.held)) (es ++ [e])
  | refused {es : List RingEntry} {len : Nat} {flags : UInt32} :
      QueueStep es (.reserve len flags) (.token none) es
  /-- a new entry, for which the oldest committed ones are given up -/
  | overwritten {readers run rest : List RingEntry} {e : RingEntry}
      {flags : UInt32} (hflags : flags &&& flagOverwrite ≠ 0)
      (hreaders : ∀ x ∈ readers, x.state = .reading) (hrun : run ≠ [])
      (hcommitted : ∀ x ∈ run, x.state = .committed)
      (hstate : e.state = .writing) (hnull : e.token ≠ 0)
      (hnew : ∀ x ∈ readers ++ rest, x.token ≠ e.token) :
      QueueStep (readers ++ (run ++ rest)) (.reserve e.len flags)
        (.token (some e.held)) (readers ++ rest ++ [e])
  /-- the oldest entry that nobody reads is committed -/
  | consumed {before after : List RingEntry} {e : RingEntry}
      (hbefore : ∀ x ∈ before, x.state = .reading)
      (hstate : e.state = .committed) :
      QueueStep (before ++ e :: after) .consume (.token (some e.held))
        (before ++ e.inState .reading :: after)
  /-- the oldest entry that nobody reads is not committed -/
  | nothing {es : List RingEntry}
      (hnone : ∀ before e after, es = before ++ e :: after →
        (∀ x ∈ before, x.state = .reading) → e.state ≠ .committed) :
      QueueStep es .consume (.token none) es
  | confirmed {before after : List RingEntry} {e : RingEntry} {flags : UInt32}
      (hstate : e.state = .writing) (hflags : flags &&& flagDiscard = 0) :
      QueueStep (before ++ e :: after) (.commit e.held flags) (.code 0)
        (before ++ e.inState .committed :: after)
  | dropped {before after : List RingEntry} {e : RingEntry} {flags : UInt32}
      (hstate : e.state = .writing) (hflags : flags &&& flagDiscard ≠ 0) :
      QueueStep (before ++ e :: after) (.commit e.held flags) (.code 0)
        (before ++ after)
  | finished {before after : List RingEntry} {e : RingEntry} {flags : UInt32}
      (hstate : e.state = .reading) (hflags : flags &&& flagDiscard = 0) :
      QueueStep (before ++ e :: after) (.commit e.held flags) (.code 0)
        (before ++ after)
  /-- all older entries are being read, so this is the next one to be consumed -/
  | returned {before after : List RingEntry} {e : RingEntry} {flags : UInt32}
      (hstate : e.state = .reading) (hflags : flags &&& flagDiscard ≠ 0)
      (hbefore : ∀ x ∈ before, x.state = .reading)
      (hnext : ∀ x ∈ after.head?, x.state ≠ .reading) :
      QueueStep (before ++ e :: after) (.commit e.held flags) (.code 0)
        (before ++ e.inState .committed :: after)
  /-- a newer entry is being read -/
  | kept {before after : List RingEntry} {e x : RingEntry} {flags : UInt32}
      (hstate : e.state = .reading) (hflags : flags &&& flagDiscard ≠ 0)
      (habandon : flags &&& flagAbandon = 0) (hnext : x.state = .reading) :
      QueueStep (before ++ e :: x :: after) (.commit e.held flags) (.code (-1))
        (before ++ e :: x :: after)
  | abandoned {before after : List RingEntry} {e x : RingEntry} {flags : UInt32}
      (hstate : e.state = .reading) (hflags : flags &&& flagDiscard ≠ 0)
      (habandon : flags &&& flagAbandon ≠ 0) (hnext : x.state = .reading) :
      QueueStep (before ++ e :: x :: after) (.commit e.held flags) (.code 0)
        (before ++ x :: after)
  | stored {before after : List RingEntry} {e : RingEntry} {i value : Nat}
      (hstate : e.state ≠ .committed) (hroom : i < e.words.length) :
      QueueStep (before ++ e :: after) (.store e.held i value) .done
        (before ++ e.withWord i value :: after)

/-- The tokens that the callers hold. -/
def heldOf (es : List RingEntry) : List HeldToken :=
  (es.filter (·.state != .committed)).map (·.held)

section Held

variable {es es' before after : List RingEntry} {e : RingEntry}
  {held : List HeldToken} {op : RingOp} {r : RingResult}

theorem mem_heldOf {h : HeldToken} :
    h ∈ heldOf es ↔ ∃ e ∈ es, e.state ≠ .committed ∧ e.held = h := by
  simp [heldOf, and_assoc]

theorem heldOf_middle (h : e.state ≠ .committed) :
    (heldOf (before ++ e :: after)).Perm (e.held :: heldOf (before ++ after)) := by
  unfold heldOf
  refine ((List.perm_middle.filter _).map _).trans ?_
  rw [List.filter_cons_of_pos (by simpa using h)]
  exact .refl _

theorem heldOf_committed (h : e.state = .committed) :
    (heldOf (before ++ e :: after)).Perm (heldOf (before ++ after)) := by
  unfold heldOf
  refine ((List.perm_middle.filter _).map _).trans ?_
  rw [List.filter_cons_of_neg (by simp [h])]

/-- What the callers hold after a call. -/
def heldAfter (held : List HeldToken) : RingOp → RingResult → List HeldToken
  | _, .token (some h) => h :: held
  | .commit h _, .code c => if c = 0 then held.erase h else held
  | _, _ => held

/-- A call changes what the callers hold as it changes the queue. -/
theorem QueueStep.held_perm (h : QueueStep es op r es')
    (hheld : held.Perm (heldOf es)) :
    (heldAfter held op r).Perm (heldOf es') := by
  have hremoved : ∀ {before after : List RingEntry} {e : RingEntry},
      e.state ≠ .committed → held.Perm (heldOf (before ++ e :: after)) →
        (held.erase e.held).Perm (heldOf (before ++ after)) := by
    intro before after e he hheld
    have herase := (hheld.trans (heldOf_middle he)).erase e.held
    rwa [List.erase_cons_head] at herase
  cases h with
  | @reserved _ e _ hstate hnull hnew =>
      have he : e.state ≠ .committed := by simp [hstate]
      have hmiddle := @heldOf_middle es [] e he
      rw [List.append_nil] at hmiddle
      exact (hheld.cons _).trans hmiddle.symm
  | refused => exact hheld
  | @overwritten readers run rest e _ hflags hreaders hrun hcommitted hstate =>
      have he : e.state ≠ .committed := by simp [hstate]
      have hlost : heldOf run = [] := by
        unfold heldOf
        rw [List.map_eq_nil_iff, List.filter_eq_nil_iff]
        intro x hx
        simp [hcommitted x hx]
      have hmiddle := @heldOf_middle (readers ++ rest) [] e he
      rw [List.append_nil] at hmiddle
      refine (hheld.cons _).trans (.trans ?_ hmiddle.symm)
      unfold heldOf at hlost ⊢
      simp [hlost]
  | @consumed before after e hbefore hstate =>
      have he : (e.inState .reading).state ≠ .committed := by simp
      exact ((hheld.trans (heldOf_committed hstate)).cons _).trans
        (heldOf_middle he).symm
  | nothing => exact hheld
  | @confirmed before after e _ hstate =>
      have he : e.state ≠ .committed := by simp [hstate]
      exact (hremoved he hheld).trans (heldOf_committed rfl).symm
  | dropped hstate => exact hremoved (by simp [hstate]) hheld
  | finished hstate => exact hremoved (by simp [hstate]) hheld
  | @returned before after e _ hstate =>
      have he : e.state ≠ .committed := by simp [hstate]
      exact (hremoved he hheld).trans (heldOf_committed rfl).symm
  | kept => exact hheld
  | abandoned hstate => exact hremoved (by simp [hstate]) hheld
  | @stored before after e i value hstate =>
      exact (hheld.trans (heldOf_middle hstate)).trans
        (heldOf_middle (e := e.withWord i value) hstate).symm

end Held

end Powerpack
end Eaf
