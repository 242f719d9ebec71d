import Eaf.Powerpack.MessageCall

/-!
# The history of a call

What has happened to the latest call of a service, read off the events of a
run.
-/

namespace Eaf
namespace Powerpack

open Core

/-- What is known about the latest call of a service. -/
structure CallHistory where
  /-- its request -/
  req : Option MsgRef
  /-- what `eaf_send_req` has returned -/
  sendCode : Option Int
  /-- the response stored for it before it went on -/
  stored : Option MsgRef
  /-- how often the hook or the handler has resumed the service -/
  resumes : Nat
  releasedReqs : List MsgRef
  freedRecords : Nat
  /-- what `eaf_message_internal_finalize` has returned -/
  finalized : Option (Int × Option MsgRef)
  deserialized : Nat
  releasedRsps : List (Option MsgRef)
  /-- the result of the macro -/
  ret : Option Int
  deriving DecidableEq, Repr

namespace CallHistory

/-- There has been no call. -/
def none : CallHistory where
  req := .none
  sendCode := .none
  stored := .none
  resumes := 0
  releasedReqs := []
  freedRecords := 0
  finalized := .none
  deserialized := 0
  releasedRsps := []
  ret := .none

/-- What an event adds to the history of the caller `c`. -/
def after (c : UInt32) (h : CallHistory) : CallEvent → CallHistory
  | .begin c' req => if c' = c then { none with req := some req } else h
  | .send c' code => if c' = c then { h with sendCode := some code } else h
  | .store uuid rsp =>
      if h.req = some uuid ∧ h.finalized = .none then
        { h with stored := some rsp }
      else h
  | .resume c' _ => if c' = c then { h with resumes := h.resumes + 1 } else h
  | .releaseReq c' req =>
      if c' = c then { h with releasedReqs := h.releasedReqs ++ [req] } else h
  | .freeRecord c' =>
      if c' = c then { h with freedRecords := h.freedRecords + 1 } else h
  | .finalize c' ret rsp =>
      if c' = c then { h with finalized := some (ret, rsp) } else h
  | .deserialize c' _ =>
      if c' = c then { h with deserialized := h.deserialized + 1 } else h
  | .releaseRsp c' rsp =>
      if c' = c then { h with releasedRsps := h.releasedRsps ++ [rsp] } else h
  | .finish c' ret => if c' = c then { h with ret := some ret } else h
  | .noMemory _ | .resumeOther _ | .abort => h

end CallHistory

/-- The history of the latest call of `c`. -/
def history (c : UInt32) (tr : List CallEvent) : CallHistory :=
  tr.foldl (CallHistory.after c) .none

@[simp] theorem history_nil (c : UInt32) : history c [] = .none := rfl

theorem history_append (c : UInt32) (tr events : List CallEvent) :
    history c (tr ++ events) = events.foldl (CallHistory.after c) (history c tr) :=
  List.foldl_append

/-- The service an event is about; a stored response is about a request. -/
def CallEvent.caller? : CallEvent → Option UInt32
  | .begin c _ | .send c _ | .resume c _ | .releaseReq c _ | .freeRecord c
  | .finalize c _ _ | .deserialize c _ | .releaseRsp c _ | .finish c _ => some c
  | .noMemory _ | .resumeOther _ | .store _ _ | .abort => none

/-- An event about another service, or about a request of another service,
adds nothing. -/
theorem CallHistory.after_other {c : UInt32} {h : CallHistory} {e : CallEvent}
    (hcaller : e.caller? ≠ some c)
    (hstore : ∀ uuid rsp, e = .store uuid rsp →
      ¬(h.req = some uuid ∧ h.finalized = .none)) :
    h.after c e = h := by
  cases e with
  | store uuid rsp => exact if_neg (hstore uuid rsp rfl)
  | noMemory | resumeOther | abort => rfl
  | _ =>
      simp only [CallEvent.caller?, ne_eq, Option.some.injEq] at hcaller
      exact if_neg hcaller

theorem history_other {c : UInt32} {tr events : List CallEvent}
    (hcaller : ∀ e ∈ events, e.caller? ≠ some c)
    (hstore : ∀ uuid rsp, .store uuid rsp ∈ events →
      ¬((history c tr).req = some uuid ∧ (history c tr).finalized = none)) :
    history c (tr ++ events) = history c tr := by
  rw [history_append]
  induction events with
  | nil => rfl
  | cons e rest ih =>
      have hfirst : (history c tr).after c e = history c tr :=
        CallHistory.after_other (hcaller e (by simp)) fun uuid rsp heq =>
          hstore uuid rsp (by simp [heq])
      rw [List.foldl_cons, hfirst]
      exact ih (fun e' he' => hcaller e' (by simp [he']))
        fun uuid rsp hmem => hstore uuid rsp (by simp [hmem])

end Powerpack
end Eaf
