import Eaf.Core.Message

/-!
# The fields of a message

`encs` holds the receipt, the type and the token of a message.  Whatever is set
in whatever order, each field has the value that it was given last.
-/

namespace Eaf
namespace Core

variable {m : Msg}

/-! ## The receipt and the token as parts of `encs` -/

/-- The receipt is in the low fifteen bits. -/
theorem msgGetReceipt_eq (m : Msg) :
    msgGetReceipt m = -((m.encs.toNat % 2 ^ 15 : Nat) : Int) := by
  have hmask : (0x7FFF : UInt64).toNat = 2 ^ 15 - 1 := rfl
  rw [msgGetReceipt, UInt64.toNat_and, hmask, Nat.and_two_pow_sub_one_eq_mod]

/-- The token is in the upper half. -/
theorem msgGetToken_eq (m : Msg) :
    msgGetToken m = ((m.encs.toNat / 2 ^ 32 : Nat) : Int).bmod (2 ^ 32) := by
  have hhalf : (m.encs >>> (32 : UInt64)).toUInt32.toNat = m.encs.toNat / 2 ^ 32 := by
    have hlt := m.encs.toNat_lt
    rw [UInt64.toNat_toUInt32, UInt64.toNat_shiftRight]
    simp only [Nat.shiftRight_eq_div_pow]
    show m.encs.toNat / 2 ^ 32 % 2 ^ 32 = _
    omega
  rw [msgGetToken, ← hhalf]
  exact BitVec.toInt_eq_toNat_bmod _

/-- Numbers with the same bits below `k` have the same remainder. -/
theorem mod_eq_of_testBit {a b k : Nat} (h : ∀ i < k, a.testBit i = b.testBit i) :
    a % 2 ^ k = b % 2 ^ k := by
  refine Nat.eq_of_testBit_eq fun i => ?_
  rw [Nat.testBit_mod_two_pow, Nat.testBit_mod_two_pow]
  by_cases hi : i < k
  · rw [h i hi]
  · simp [hi]

/-- And from `k` on, the same quotient. -/
theorem div_eq_of_testBit {a b k : Nat} (h : ∀ i, k ≤ i → a.testBit i = b.testBit i) :
    a / 2 ^ k = b / 2 ^ k := by
  refine Nat.eq_of_testBit_eq fun i => ?_
  rw [Nat.testBit_div_two_pow, Nat.testBit_div_two_pow]
  exact h _ (Nat.le_add_left k i)

/-! ## Setting one and reading the other -/

theorem testBit_setReceipt {receipt : Int} (i : Nat) :
    (msgSetReceipt m receipt).encs.toNat.testBit i =
      if i < 15 then receipt.natAbs.testBit i else m.encs.toNat.testBit i := by
  have hvalue : (UInt64.ofNat (receipt.natAbs % 0x8000)).toNat = receipt.natAbs % 2 ^ 15 := by
    rw [UInt64.toNat_ofNat']
    omega
  have hmask : (0xFFFFFFFFFFFF8000 : UInt64).toNat = (2 ^ 49 - 1) <<< 15 := rfl
  have hlt := m.encs.toNat_lt
  rw [msgSetReceipt, UInt64.toNat_or, UInt64.toNat_and, hvalue, hmask, Nat.testBit_or,
    Nat.testBit_and, Nat.testBit_shiftLeft, Nat.testBit_two_pow_sub_one,
    Nat.testBit_mod_two_pow]
  by_cases hlow : i < 15
  · simp [hlow, Nat.not_le.mpr hlow]
  by_cases hhigh : i < 64
  · have hin : i - 15 < 49 := by omega
    simp [hlow, Nat.not_lt.mp hlow, hin]
  · have hbit : m.encs.toNat.testBit i = false :=
      Nat.testBit_lt_two_pow (hlt.trans_le (Nat.pow_le_pow_right (by decide) (by omega)))
    simp [hlow, hbit]

theorem testBit_setToken {token : Int} (i : Nat) :
    (msgSetToken m token).encs.toNat.testBit i =
      if i < 32 then m.encs.toNat.testBit i
      else (token % 2 ^ 32).toNat.testBit (i - 32) := by
  have hvalue : (UInt64.ofInt token).toNat = (token % 2 ^ 64).toNat := by
    rw [UInt64.ofInt, UInt64.toNat_ofNat']
    omega
  have hmask : (0xFFFFFFFF : UInt64).toNat = 2 ^ 32 - 1 := rfl
  have hshift : (32 : UInt64).toNat % 64 = 32 := rfl
  have hpart : (token % 2 ^ 32).toNat = (token % 2 ^ 64).toNat % 2 ^ 32 := by omega
  rw [msgSetToken, UInt64.toNat_or, UInt64.toNat_and, UInt64.toNat_shiftLeft, hvalue,
    hmask, hshift, Nat.testBit_or, Nat.testBit_and, Nat.testBit_two_pow_sub_one,
    Nat.testBit_mod_two_pow, Nat.testBit_shiftLeft, hpart, Nat.testBit_mod_two_pow]
  by_cases hlow : i < 32
  · simp [hlow, Nat.not_le.mpr hlow]
  · have hiff : i < 64 ↔ i - 32 < 32 := by omega
    simp [hlow, Nat.not_lt.mp hlow, hiff]

theorem msgGetReceipt_setReceipt {receipt : Int} (h : receipt.natAbs < 2 ^ 15) :
    msgGetReceipt (msgSetReceipt m receipt) = -(receipt.natAbs : Int) := by
  have hlow := @mod_eq_of_testBit (msgSetReceipt m receipt).encs.toNat receipt.natAbs 15
    fun i hi => by rw [testBit_setReceipt, if_pos hi]
  rw [msgGetReceipt_eq, hlow, Nat.mod_eq_of_lt h]

theorem msgGetReceipt_setToken (token : Int) :
    msgGetReceipt (msgSetToken m token) = msgGetReceipt m := by
  have hlow := @mod_eq_of_testBit (msgSetToken m token).encs.toNat m.encs.toNat 15
    fun i hi => by rw [testBit_setToken, if_pos (by omega)]
  rw [msgGetReceipt_eq, msgGetReceipt_eq, hlow]

theorem msgGetToken_setReceipt (receipt : Int) :
    msgGetToken (msgSetReceipt m receipt) = msgGetToken m := by
  have hhigh := @div_eq_of_testBit (msgSetReceipt m receipt).encs.toNat m.encs.toNat 32
    fun i hi => by rw [testBit_setReceipt, if_neg (by omega)]
  rw [msgGetToken_eq, msgGetToken_eq, hhigh]

theorem msgGetToken_setToken (token : Int32) :
    msgGetToken (msgSetToken m token.toInt) = token.toInt := by
  have hhigh : (msgSetToken m token.toInt).encs.toNat / 2 ^ 32 =
      (token.toInt % 2 ^ 32).toNat := by
    refine Nat.eq_of_testBit_eq fun i => ?_
    rw [Nat.testBit_div_two_pow, testBit_setToken, if_neg (by omega), Nat.add_sub_cancel]
  have hpos : 0 ≤ token.toInt % 2 ^ 32 := Int.emod_nonneg _ (by decide)
  rw [msgGetToken_eq, hhigh, Int.toNat_of_nonneg hpos]
  show (token.toInt % ((2 ^ 32 : Nat) : Int)).bmod (2 ^ 32) = _
  rw [Int.emod_bmod]
  exact Int.bmod_eq_of_le (Int32.le_toInt token) (Int32.toInt_lt token)

/-! ## Any sequence of settings -/

/-- A setting of a field. -/
inductive MsgSetter
  | receipt (receipt : Int)
  | token (token : Int32)
  deriving DecidableEq, Repr

namespace MsgSetter

/-- `eaf_msg_set_receipt` or `eaf_msg_set_token` -/
def apply (m : Msg) : MsgSetter → Msg
  | receipt r => msgSetReceipt m r
  | token t => msgSetToken m t.toInt

def receipt? : MsgSetter → Option Int
  | receipt r => some r
  | token _ => none

def token? : MsgSetter → Option Int32
  | receipt _ => none
  | token t => some t

end MsgSetter

/-- The receipt set last, 0 before the first. -/
def lastReceipt (setters : List MsgSetter) : Int :=
  (setters.filterMap MsgSetter.receipt?).getLast?.getD 0

/-- The token set last, 0 before the first. -/
def lastToken (setters : List MsgSetter) : Int32 :=
  (setters.filterMap MsgSetter.token?).getLast?.getD 0

/-- What a message shows: the magnitude of its receipt and its token. -/
structure FieldsShow (m : Msg) (receipt : Int) (token : Int32) : Prop where
  receipt : msgGetReceipt m = -(receipt.natAbs : Int)
  token : msgGetToken m = token.toInt

theorem shows_createReq (addr : MsgRef) (msgId : UInt32) (size : Nat) (rspFn : Fn) :
    FieldsShow (msgCreateReq addr msgId size rspFn) 0 0 := by
  have hencs : (msgCreateReq addr msgId size rspFn).encs.toNat = 2 ^ 15 := rfl
  constructor
  · rw [msgGetReceipt_eq, hencs]
    decide
  · rw [msgGetToken_eq, hencs]
    decide

theorem shows_createRsp (req : Msg) (size : Nat) :
    FieldsShow (msgCreateRsp req size) 0 0 := by
  have hencs : (msgCreateRsp req size).encs.toNat = 0 := rfl
  constructor
  · rw [msgGetReceipt_eq, hencs]
    decide
  · rw [msgGetToken_eq, hencs]
    decide

/-- A setter changes its own field. -/
theorem FieldsShow.apply {s : MsgSetter} {r : Int} {t : Int32} (h : FieldsShow m r t)
    (hfits : ∀ r ∈ s.receipt?, -32767 ≤ r ∧ r ≤ 32767) :
    FieldsShow (s.apply m) (s.receipt?.getD r) (s.token?.getD t) := by
  cases s with
  | receipt r' =>
      obtain ⟨hlo, hhi⟩ := hfits r' rfl
      exact ⟨msgGetReceipt_setReceipt (by omega),
        (msgGetToken_setReceipt r').trans h.token⟩
  | token t' =>
      exact ⟨(msgGetReceipt_setToken t'.toInt).trans h.receipt, msgGetToken_setToken t'⟩

/-- After any settings, the fields show what was set last. -/
theorem FieldsShow.run {setters : List MsgSetter} {r : Int} {t : Int32} (h : FieldsShow m r t)
    (hfits : ∀ s ∈ setters, ∀ r ∈ s.receipt?, -32767 ≤ r ∧ r ≤ 32767) :
    FieldsShow (setters.foldl MsgSetter.apply m)
      ((setters.filterMap MsgSetter.receipt?).getLast?.getD r)
      ((setters.filterMap MsgSetter.token?).getLast?.getD t) := by
  induction setters generalizing m r t with
  | nil => exact h
  | cons s rest ih =>
      have hfirst := h.apply (hfits s List.mem_cons_self)
      have hrest := ih hfirst fun s hs => hfits s (List.mem_cons_of_mem _ hs)
      cases s with
      | receipt r' =>
          rw [List.filterMap_cons_some (f := MsgSetter.receipt?) rfl,
            List.filterMap_cons_none (f := MsgSetter.token?) rfl,
            List.getLast?_cons, Option.getD_some]
          exact hrest
      | token t' =>
          rw [List.filterMap_cons_none (f := MsgSetter.receipt?) rfl,
            List.filterMap_cons_some (f := MsgSetter.token?) rfl,
            List.getLast?_cons, Option.getD_some]
          exact hrest

/-- Nothing else is changed. -/
theorem setters_keep (m : Msg) (setters : List MsgSetter) :
    msgGetType (setters.foldl MsgSetter.apply m) = msgGetType m ∧
      (setters.foldl MsgSetter.apply m).uuid = m.uuid ∧
      msgGetRspFn (setters.foldl MsgSetter.apply m) = msgGetRspFn m := by
  induction setters generalizing m with
  | nil => exact ⟨rfl, rfl, rfl⟩
  | cons s rest ih =>
      obtain ⟨htype, huuid, hfn⟩ := ih (s.apply m)
      rw [List.foldl_cons, htype, huuid, hfn]
      cases s with
      | receipt r => exact ⟨msgGetType_setReceipt m r, rfl, rfl⟩
      | token t => exact ⟨msgGetType_setToken m t.toInt, rfl, rfl⟩

/-- A message as it is made. -/
inductive MsgCreated : Msg → MsgType → Prop
  | req (addr : MsgRef) (msgId : UInt32) (size : Nat) (rspFn : Fn) :
      MsgCreated (msgCreateReq addr msgId size rspFn) .req
  | rsp (req : Msg) (size : Nat) : MsgCreated (msgCreateRsp req size) .rsp

/-- However often the receipt and the token of a message are set, each reads as
it was set last, and the type, the uuid and the response handler stay as they
were made. -/
theorem message_fields_apart {type : MsgType} {setters : List MsgSetter}
    (hm : MsgCreated m type)
    (hfits : ∀ s ∈ setters, ∀ r ∈ s.receipt?, -32767 ≤ r ∧ r ≤ 32767) :
    msgGetReceipt (setters.foldl MsgSetter.apply m) =
        -((lastReceipt setters).natAbs : Int) ∧
      msgGetToken (setters.foldl MsgSetter.apply m) = (lastToken setters).toInt ∧
      msgGetType (setters.foldl MsgSetter.apply m) = type ∧
      (setters.foldl MsgSetter.apply m).uuid = m.uuid ∧
      msgGetRspFn (setters.foldl MsgSetter.apply m) = msgGetRspFn m := by
  obtain ⟨htype, huuid, hfn⟩ := setters_keep m setters
  have hshows : FieldsShow m 0 0 ∧ msgGetType m = type := by
    cases hm with
    | req addr msgId size rspFn =>
        exact ⟨shows_createReq addr msgId size rspFn,
          msgGetType_createReq addr msgId size rspFn⟩
    | rsp req size => exact ⟨shows_createRsp req size, msgGetType_createRsp req size⟩
  obtain ⟨hreceipt, htoken⟩ := hshows.1.run hfits
  exact ⟨hreceipt, htoken, htype.trans hshows.2, huuid, hfn⟩

/-- A request whose fields are set in turn. -/
theorem message_fields_apart_req :
    let m := [MsgSetter.receipt (-8), .token (-1000), .receipt 32767, .token 7].foldl
      MsgSetter.apply (msgCreateReq 1 2 3 4)
    msgGetReceipt m = -32767 ∧ msgGetToken m = 7 ∧ msgGetType m = .req ∧ m.uuid = 1 ∧
      msgGetRspFn m = some 4 :=
  message_fields_apart (.req 1 2 3 4) (by decide)

end Core
end Eaf
