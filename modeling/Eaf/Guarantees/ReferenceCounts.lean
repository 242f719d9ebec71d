import Eaf.System.FailedSends
import Eaf.System.Emptying
import Eaf.Guarantees.ListMembership

/-!
# Reference counts are conserved

The count of a message is the number of references to it, so a message is
there as long as somebody can use it.  A send that fails takes nothing along,
and an undisturbed cleanup leaves no record behind.
-/

namespace Eaf
namespace Core

open LabelledRun

variable {L : Layout} {s : Sys} {tr : List Event}

/-- **Reference counts are conserved.**  In every reachable state the count of
a message is the number of its references, a message exists exactly as long as
there is one, and whoever can use a message finds it alive.  The steps of a
send that fails change no group, and no count in total.  After an
`eaf_cleanup` during which no other call was in progress, no record is left. -/
theorem references_conserved (L : Layout) (h : Trace L (serial L) tr s) :
    (∀ m x, s.msg m = some x → x.refcnt = s.refs L m) ∧
    (∀ m, (s.msg m).isSome ↔ 0 < s.refs L m) ∧
    (∀ m via, s.accessible L m via = true → (s.msg m).isSome) ∧
    (∀ t b, (s.call t).send? = some b → (s.msg b.msg).isSome) ∧
    (∀ g i r, g < L.size → i < (L.conf g).size →
      r ∈ ((s.group g).table i).records → (s.msg r.msg).isSome) ∧
    (∀ t b own s' code, s.call t = .sendTest b →
      Run (During L t) s own s' → s'.call t = .done code →
      code ≠ Errno.success →
        (∀ p ∈ own, p.2.group = p.1.group) ∧
        ∀ m, Ledger.total own (fun p => p.2.count m) =
          Ledger.total own fun p => p.1.count m) ∧
    (Trace L (undisturbed L) tr s →
      (∃ t, .ret t .cleanup Errno.success ∈ tr) →
      ∀ g i, g < L.size → i < (L.conf g).size →
        ((s.group g).table i).queue = [] ∧
        ((s.group g).table i).curMsg = none) := by
  have bal := h.balanced
  refine ⟨fun m x hx => ?_, bal.live_iff,
    fun m via hvia => h.live_of_accessible bal hvia,
    fun t b hb => h.live_of_send bal hb,
    fun g i r hg hi hr => bal.live_of_group hg (Group.refs_pos hi hr),
    fun t b own s' code hstart hrun hdone hcode =>
      h.failed_send hstart hrun hdone hcode,
    fun hquiet hret g i hg hi => ?_⟩
  · have hcount := bal.count m
    simpa only [Sys.count, hx] using hcount
  · obtain ⟨t, hret⟩ := hret
    exact hquiet.stayEmpty.freed (hquiet.freed hret) g i hg hi

/-- The references of user code, including those it has lent to sends. -/
def Sys.userRefs (L : Layout) (s : Sys) (m : MsgRef) : Nat :=
  s.owned m + Ledger.total L.threads fun t =>
    match (s.call t).send? with
    | some b => b.lent m
    | none => 0

/-- The queued and current records that point to a message. -/
def Sys.recordRefs (L : Layout) (s : Sys) (m : MsgRef) : Nat :=
  Ledger.total (List.range L.size) fun g =>
    Ledger.total (List.range (L.conf g).size) fun i =>
      ((s.group g).table i).refs m

/-- The send of a request, up to the point where its record is made. -/
def lazyPairRecord : List Act :=
  lazyPairLoad ++
    [.user (.createReq 5 0 0),
      .enter (.client 1) (.send ⟨.req, 9, 1, 0, false⟩)] ++ clientSteps 1 5

theorem references_conserved_lazy :
    ∃ tr s, Trace lazyPair (serial lazyPair) tr s ∧
      (s.msg 0).map (·.refcnt) = some 2 ∧ s.refs lazyPair 0 = 2 := by
  obtain ⟨tr, s, hrun, hcheck⟩ :=
    exists_trace lazyPair (serial lazyPair) lazyPairRecord
      (fun o => (o.1.msg 0).map (·.refcnt) == some 2) (by decide +kernel)
  have htwo : (s.msg 0).map (·.refcnt) = some 2 := by simpa using hcheck
  obtain ⟨x, hx, hrefcnt⟩ := Option.map_eq_some_iff.mp htwo
  exact ⟨tr, s, hrun, htwo, by
    rw [← (references_conserved lazyPair hrun).1 0 x hx, hrefcnt]⟩

/-- While a send holds the record it has just made, the count of the message
exceeds the references of user code and of the queued and current records. -/
theorem record_in_transit :
    ∃ tr s m x, Trace lazyPair (serial lazyPair) tr s ∧
      s.msg m = some x ∧
      x.refcnt ≠ s.userRefs lazyPair m + s.recordRefs lazyPair m := by
  obtain ⟨tr, s, hrun, hcheck⟩ :=
    exists_trace lazyPair (serial lazyPair) lazyPairRecord
      (fun o => (o.1.msg 0).any fun x => decide (x.refcnt ≠
        o.1.userRefs lazyPair 0 + o.1.recordRefs lazyPair 0))
      (by decide +kernel)
  obtain ⟨x, hx, hdiff⟩ := (Option.any_eq_true _ _).mp hcheck
  exact ⟨tr, s, 0, x, hrun, hx, of_decide_eq_true hdiff⟩

end Core
end Eaf
