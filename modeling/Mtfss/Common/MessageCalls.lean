import Mtfss.Common.Protocol

/-! The calls that sending and receiving messages make. -/

namespace Mtfss

open Effects

variable {A : (o : Call) → Answer o → Prop} {C : Call → Prop}

section Sending

variable (hsend : ∀ data count, C (.send data count))
include hsend

lemma calls_sendLoop (fuel : ℕ) (bs : Bytes) : (sendLoop fuel bs).Calls A C := by
  fun_induction sendLoop fuel bs with
  | case1 => trivial
  | case2 => trivial
  | case3 fuel bs h ih =>
    refine ⟨hsend _ _, fun r _ => ?_⟩
    rcases r with _ | _ | n
    · trivial
    · trivial
    · exact ih (n + 1)

lemma calls_sendAll (bs : Bytes) : (sendAll bs).Calls A C := calls_sendLoop hsend _ _

lemma calls_sendField (n : UInt64) (bs : Bytes) : (sendField n bs).Calls A C := by
  unfold sendField
  split
  · exact calls_sendAll hsend _
  · trivial

lemma calls_sendMessageMeta (host : Endian) (h : MessageHeader) (username filename : Bytes) :
    (sendMessageMeta host h username filename).Calls A C := by
  refine .bind (calls_sendAll hsend _) ?_
  rintro (_ | _)
  · trivial
  refine .bind (calls_sendField hsend _ _) ?_
  rintro (_ | _)
  · trivial
  · exact calls_sendField hsend _ _

lemma calls_sendMessage (host : Endian) (h : MessageHeader) (username filename : Bytes)
    (payload : Option Bytes) : (sendMessage host h username filename payload).Calls A C := by
  refine .bind (calls_sendAll hsend _) ?_
  rintro (_ | _)
  · trivial
  refine .bind (calls_sendField hsend _ _) ?_
  rintro (_ | _)
  · trivial
  refine .bind (calls_sendField hsend _ _) ?_
  rintro (_ | _)
  · trivial
  cases payload with
  | none => trivial
  | some data =>
    simp only [Bool.not_true, Bool.false_eq_true, if_false]
    split
    · exact calls_sendAll hsend _
    · trivial

end Sending

section Receiving

variable (hrecv : ∀ count, C (.recv count))
include hrecv

lemma calls_recvLoop (fuel n : ℕ) (got : Bytes) : (recvLoop fuel n got).Calls A C := by
  fun_induction recvLoop fuel n got with
  | case1 => trivial
  | case2 => trivial
  | case3 fuel n got h ih =>
    refine ⟨hrecv _, fun r _ => ?_⟩
    rcases r with _ | _ | ⟨b, bs⟩
    · trivial
    · trivial
    · exact ih (b :: bs)

lemma calls_recvAll (n : ℕ) : (recvAll n).Calls A C := calls_recvLoop hrecv _ _ _

lemma calls_recvHeader (host : Endian) : (recvHeader host).Calls A C := by
  refine .bind (calls_recvAll hrecv 32) ?_
  rintro (_ | _) <;> trivial

variable (halloc : ∀ n, C (.alloc n))
include halloc

lemma calls_recvField (n : UInt64) : (recvField n).Calls A C := by
  unfold recvField
  split
  · exact .bind ⟨halloc _, fun _ _ => Prog.calls_ofExcept _⟩ fun _ => calls_recvAll hrecv _
  · trivial

lemma calls_recvMessageMeta (host : Endian) : (recvMessageMeta host).Calls A C := by
  refine .bind (calls_recvHeader hrecv host) ?_
  rintro (_ | h)
  · trivial
  refine .bind (calls_recvField hrecv halloc _) ?_
  rintro (_ | username)
  · trivial
  refine .bind (calls_recvField hrecv halloc _) ?_
  rintro (_ | filename) <;> trivial

lemma calls_recvMessage (host : Endian) : (recvMessage host).Calls A C := by
  refine .bind (calls_recvHeader hrecv host) ?_
  rintro (_ | h)
  · trivial
  refine .bind (calls_recvField hrecv halloc _) ?_
  rintro (_ | username)
  · trivial
  refine .bind (calls_recvField hrecv halloc _) ?_
  rintro (_ | filename)
  · trivial
  refine .bind (calls_recvField hrecv halloc _) ?_
  rintro (_ | payload) <;> trivial

end Receiving

end Mtfss
