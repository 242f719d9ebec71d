import Eaf.Core.Message

/-!
# The hooks of PowerPack

The core has room for one set of hooks.  PowerPack takes this place and hands
every call on to the hooks that are registered with it, in the order of their
registration.  For a hook with a result it has to make one code out of many.
-/

namespace Eaf
namespace Powerpack

open Core

/-- The hooks of `eaf_hook_t` that have a result; a null pointer is `none`. -/
structure Hook where
  onServiceRegister : Option (UInt32 → Int)
  onMessageSendBefore : Option (UInt32 → UInt32 → MsgRef → Int)
  onMessageHandleBefore : Option (UInt32 → UInt32 → MsgRef → Int)

/-- The locals of the loop: `ret` and `flag_first`. -/
structure HookLoop where
  ret : Int
  flagFirst : Bool

/-- One turn of the loop; `none` is a hook without the callback. -/
def HookLoop.turn (l : HookLoop) : Option Int → HookLoop
  | none => l
  | some tmpRet => if l.flagFirst then ⟨tmpRet, false⟩ else l

/-- `FOREACH_INT_HOOK`, where `call` is the call of the callback in question
if the hook has it. -/
def foreachIntHook (call : Hook → Option Int) (table : List Hook) : Int :=
  (table.foldl (fun l hook => HookLoop.turn l (call hook))
    (HookLoop.mk 0 true)).ret

/-- `_pp_hook_on_service_register` -/
def ppHookOnServiceRegister (table : List Hook) (id : UInt32) : Int :=
  foreachIntHook (fun hook => hook.onServiceRegister.map fun fn => fn id) table

/-- The codes the callbacks `on_message_send_before` return. -/
def Hook.sendBefore (src dst : UInt32) (msg : MsgRef) (hook : Hook) :
    Option Int :=
  hook.onMessageSendBefore.map fun fn => fn src dst msg

/-- The codes the callbacks `on_message_handle_before` return. -/
def Hook.handleBefore (src dst : UInt32) (msg : MsgRef) (hook : Hook) :
    Option Int :=
  hook.onMessageHandleBefore.map fun fn => fn src dst msg

/-- `_pp_hook_on_message_send_before` -/
def ppHookOnMessageSendBefore (table : List Hook) (src dst : UInt32)
    (msg : MsgRef) : Int :=
  foreachIntHook (Hook.sendBefore src dst msg) table

/-- `_pp_hook_on_message_handle_before` -/
def ppHookOnMessageHandleBefore (table : List Hook) (src dst : UInt32)
    (msg : MsgRef) : Int :=
  foreachIntHook (Hook.handleBefore src dst msg) table

section Fanout

variable {call : Hook → Option Int} {table : List Hook}

/-- After the first callback the loop keeps its result. -/
theorem foldl_turn_of_not_first (ret : Int) :
    table.foldl (fun l hook => HookLoop.turn l (call hook))
      (HookLoop.mk ret false) = HookLoop.mk ret false := by
  induction table with
  | nil => rfl
  | cons hook rest ih =>
      rw [List.foldl_cons]
      cases call hook <;> exact ih

/-- The loop returns what the first callback has returned. -/
theorem foreachIntHook_eq :
    foreachIntHook call table = (table.filterMap call).headD 0 := by
  unfold foreachIntHook
  induction table with
  | nil => rfl
  | cons hook rest ih =>
      rw [List.foldl_cons, List.filterMap_cons]
      cases hcall : call hook with
      | none => exact ih
      | some code =>
          show (List.foldl _ (HookLoop.mk code false) rest).ret = code
          rw [foldl_turn_of_not_first]

/-- Every callback has allowed the message. -/
def AllAllow (codes : List Int) : Prop :=
  ∀ code ∈ codes, code = 0

instance (codes : List Int) : Decidable (AllAllow codes) :=
  inferInstanceAs (Decidable (∀ code ∈ codes, code = 0))

/-- The result of the loop tells `0` from a refusal, as the core reads it,
exactly if all callbacks allow or the first one returns an error. -/
def ShownToCore (codes : List Int) : Prop :=
  AllAllow codes ∨ codes.headD 0 < 0

/-- The code of a refusal that the core sees is one of the codes. -/
theorem foreachIntHook_mem (h : foreachIntHook call table < 0) :
    foreachIntHook call table ∈ table.filterMap call := by
  rw [foreachIntHook_eq] at h ⊢
  cases hcodes : table.filterMap call with
  | nil => simp [hcodes] at h
  | cons code rest => simp

end Fanout

end Powerpack
end Eaf
