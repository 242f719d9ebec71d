import Mathlib.Data.List.Basic
import Mathlib.Data.Nat.Bitwise

/-!
# Messages

`eaf_msg_full_t` and the functions on it from `core/message.c`, together with
the error codes of `eaf/utils/errno.h`.  A message is referred to by its
address, a natural number; a pointer to a function is its address too, with
`0` for `NULL`.  The reference count lives in the message, as in the source;
creating and destroying the object around it is the business of the runtime
that owns the heap.
-/

namespace Eaf
namespace Core

/-! ## Error codes -/

namespace Errno

/-- `eaf_errno_success` -/
def success : Int := 0x00

/-- `eaf_errno_unknown` -/
def unknown : Int := -0x01

/-- `eaf_errno_duplicate` -/
def duplicate : Int := -0x02

/-- `eaf_errno_memory` -/
def memory : Int := -0x03

/-- `eaf_errno_state` -/
def state : Int := -0x04

/-- `eaf_errno_notfound` -/
def notfound : Int := -0x05

/-- `eaf_errno_overflow` -/
def overflow : Int := -0x06

/-- `eaf_errno_timeout` -/
def timeout : Int := -0x07

/-- `eaf_errno_invalid` -/
def invalid : Int := -0x08

end Errno

/-! ## The message object -/

/-- The address of a message. -/
abbrev MsgRef := Nat

/-- The address of a function, `0` for `NULL`. -/
abbrev Fn := Nat

/-- `EAF_MSG_ENCS_REQ` -/
def msgEncsReq : UInt64 := 0x8000

/-- `eaf_msg_type_t` -/
inductive MsgType
  | req
  | rsp
  deriving DecidableEq, Repr

/-- `eaf_msg_full_t`: the public header, the reference count and the size of
the user data. -/
structure Msg where
  /-- `msg.id` -/
  id : UInt32
  /-- `msg.from` -/
  sender : UInt32
  /-- `msg.info.dynamics.encs` -/
  encs : UInt64
  /-- `msg.info.constant.uuid` -/
  uuid : MsgRef
  /-- `msg.info.constant.orig` -/
  orig : Fn
  /-- `cnt.refcnt` -/
  refcnt : Nat
  /-- `data.size` -/
  size : Nat
  deriving DecidableEq, Repr

/-- `eaf_msg_create_req`, for a message allocated at `addr`. -/
def msgCreateReq (addr : MsgRef) (msgId : UInt32) (size : Nat) (rspFn : Fn) :
    Msg where
  id := msgId
  sender := 0xFFFFFFFF
  encs := msgEncsReq
  uuid := addr
  orig := rspFn
  refcnt := 1
  size := size

/-- `eaf_msg_create_rsp`. -/
def msgCreateRsp (req : Msg) (size : Nat) : Msg where
  id := req.id
  sender := 0xFFFFFFFF
  encs := 0
  uuid := req.uuid
  orig := req.orig
  refcnt := 1
  size := size

/-- `eaf_msg_get_type`. -/
def msgGetType (m : Msg) : MsgType :=
  if m.encs &&& msgEncsReq ≠ 0 then .req else .rsp

/-- `eaf_msg_get_rsp_fn`; `none` is the null pointer. -/
def msgGetRspFn (m : Msg) : Option Fn :=
  if m.orig = 0 then none else some m.orig

/-- `eaf_msg_set_receipt`: the low fifteen bits of `encs` are replaced by the
magnitude of the receipt. -/
def msgSetReceipt (m : Msg) (receipt : Int) : Msg :=
  { m with
    encs := (m.encs &&& 0xFFFFFFFFFFFF8000) |||
      UInt64.ofNat (receipt.natAbs % 0x8000) }

/-- `eaf_msg_get_receipt`. -/
def msgGetReceipt (m : Msg) : Int :=
  -((m.encs &&& (0x7FFF : UInt64)).toNat : Int)

/-- `eaf_msg_set_token`: the upper half of `encs` is replaced by the token. -/
def msgSetToken (m : Msg) (token : Int) : Msg :=
  { m with
    encs := (m.encs &&& (0xFFFFFFFF : UInt64)) |||
      (UInt64.ofInt token <<< (32 : UInt64)) }

/-- `eaf_msg_get_token`. -/
def msgGetToken (m : Msg) : Int :=
  (m.encs >>> (32 : UInt64)).toUInt32.toInt32.toInt

/-- `eaf_msg_set_rsp_fn`. -/
def msgSetRspFn (m : Msg) (fn : Fn) : Msg :=
  { m with orig := fn }

@[simp] theorem msgCreateReq_refcnt (addr : MsgRef) (msgId : UInt32)
    (size : Nat) (rspFn : Fn) :
    (msgCreateReq addr msgId size rspFn).refcnt = 1 := rfl

@[simp] theorem msgCreateRsp_refcnt (req : Msg) (size : Nat) :
    (msgCreateRsp req size).refcnt = 1 := rfl

@[simp] theorem msgSetReceipt_refcnt (m : Msg) (receipt : Int) :
    (msgSetReceipt m receipt).refcnt = m.refcnt := rfl

/-! ## The type of a message -/

/-- The type is in bit 15 of `encs`. -/
theorem msgGetType_eq_req {m : Msg} :
    msgGetType m = .req ↔ m.encs.toNat.testBit 15 = true := by
  have hbit : (m.encs &&& msgEncsReq).toNat = 0 ↔
      m.encs.toNat.testBit 15 = false := by
    have hmask : msgEncsReq.toNat = 2 ^ 15 := rfl
    rw [UInt64.toNat_and, hmask]
    rw [Nat.and_two_pow]
    cases m.encs.toNat.testBit 15 <;> simp
  have hzero : m.encs &&& msgEncsReq = 0 ↔
      (m.encs &&& msgEncsReq).toNat = 0 := by
    rw [← UInt64.toNat_inj]
    rfl
  unfold msgGetType
  simp only [ne_eq, hzero, hbit]
  cases m.encs.toNat.testBit 15 <;> simp

theorem msgGetType_congr {m m' : Msg}
    (h : m'.encs.toNat.testBit 15 = m.encs.toNat.testBit 15) :
    msgGetType m' = msgGetType m := by
  have hiff : msgGetType m' = .req ↔ msgGetType m = .req := by
    rw [msgGetType_eq_req, msgGetType_eq_req, h]
  cases h' : msgGetType m' <;> cases h : msgGetType m <;> simp_all

@[simp] theorem msgGetType_setReceipt (m : Msg) (receipt : Int) :
    msgGetType (msgSetReceipt m receipt) = msgGetType m := by
  refine msgGetType_congr ?_
  have hlow : receipt.natAbs % 0x8000 < 2 ^ 15 :=
    Nat.mod_lt _ (by decide)
  have hmask : (0xFFFFFFFFFFFF8000 : UInt64).toNat.testBit 15 = true := by
    decide
  simp only [msgSetReceipt, UInt64.toNat_or, UInt64.toNat_and,
    Nat.testBit_or, Nat.testBit_and, hmask, UInt64.toNat_ofNat']
  rw [Nat.mod_eq_of_lt (Nat.lt_trans hlow (by decide)),
    Nat.testBit_lt_two_pow hlow]
  simp

@[simp] theorem msgGetType_setToken (m : Msg) (token : Int) :
    msgGetType (msgSetToken m token) = msgGetType m := by
  refine msgGetType_congr ?_
  have hmask : (0xFFFFFFFF : UInt64).toNat.testBit 15 = true := by decide
  simp only [msgSetToken, UInt64.toNat_or, UInt64.toNat_and,
    Nat.testBit_or, Nat.testBit_and, hmask, UInt64.toNat_shiftLeft]
  have hhigh : ((UInt64.ofInt token).toNat <<<
      ((32 : UInt64).toNat % 64) % 2 ^ 64).testBit 15 = false := by
    rw [Nat.testBit_mod_two_pow, Nat.testBit_shiftLeft]
    simp
  rw [hhigh]
  simp

@[simp] theorem msgGetType_setRspFn (m : Msg) (fn : Fn) :
    msgGetType (msgSetRspFn m fn) = msgGetType m := rfl

@[simp] theorem msgGetType_createReq (addr : MsgRef) (msgId : UInt32)
    (size : Nat) (rspFn : Fn) :
    msgGetType (msgCreateReq addr msgId size rspFn) = .req := by
  have hmask : msgEncsReq.toNat.testBit 15 = true := by decide
  rw [msgGetType_eq_req]
  exact hmask

@[simp] theorem msgGetType_createRsp (req : Msg) (size : Nat) :
    msgGetType (msgCreateRsp req size) = .rsp := by
  cases htype : msgGetType (msgCreateRsp req size) with
  | rsp => rfl
  | req =>
      rw [msgGetType_eq_req] at htype
      simp [msgCreateRsp] at htype

/-! ## Queue records -/

/-- `eaf_msgq_record_t`.  `reqFn` is `none` while nothing has been stored in
`info.req.req_fn`; `rid` is the address of the record. -/
structure MsgqRecord where
  rid : Nat
  reqFn : Option Fn
  /-- `data.from` -/
  src : UInt32
  /-- `data.to` -/
  dst : UInt32
  /-- `data.msg` -/
  msg : MsgRef
  deriving DecidableEq, Repr

end Core
end Eaf
