import Wjetcd.Lib.Maps

/-! The commands of `kv/command.go`.

`CommandType` is an `int` with ten named values; a decoded message can hold any
other integer, which `other` keeps. -/
namespace Wjetcd

inductive CommandType where
  | put
  | get
  | delete
  | leaseGrant
  | leaseRevoke
  | leaseAttach
  | leaseKeepAlive
  | cas
  | deletePrefix
  | getPrefix
  | other (n : Int) (h : n < 0 ∨ 9 < n)
deriving Repr, DecidableEq

namespace CommandType

def toInt : CommandType → Int
  | put => 0
  | get => 1
  | delete => 2
  | leaseGrant => 3
  | leaseRevoke => 4
  | leaseAttach => 5
  | leaseKeepAlive => 6
  | cas => 7
  | deletePrefix => 8
  | getPrefix => 9
  | other n _ => n

def ofInt (n : Int) : CommandType :=
  if h0 : n = 0 then put
  else if h1 : n = 1 then get
  else if h2 : n = 2 then delete
  else if h3 : n = 3 then leaseGrant
  else if h4 : n = 4 then leaseRevoke
  else if h5 : n = 5 then leaseAttach
  else if h6 : n = 6 then leaseKeepAlive
  else if h7 : n = 7 then cas
  else if h8 : n = 8 then deletePrefix
  else if h9 : n = 9 then getPrefix
  else other n (by omega)

theorem ofInt_toInt (t : CommandType) : ofInt t.toInt = t := by
  cases t with
  | other n h =>
    show ofInt n = _
    unfold ofInt
    rw [dif_neg (by omega), dif_neg (by omega), dif_neg (by omega), dif_neg (by omega),
      dif_neg (by omega), dif_neg (by omega), dif_neg (by omega), dif_neg (by omega),
      dif_neg (by omega), dif_neg (by omega)]
  | _ => rfl

/-- One of the ten constants. -/
def Known : CommandType → Prop
  | other _ _ => False
  | _ => True

theorem not_known_ofInt {n : Int} (h : n < 0 ∨ 9 < n) : ¬(ofInt n).Known := by
  rw [show ofInt n = other n h from ofInt_toInt (other n h)]
  exact id

/-- The types for which the apply loop hands out a revision. -/
def writes : CommandType → Bool
  | put | delete | cas | leaseAttach | deletePrefix => true
  | _ => false

end CommandType

structure Command where
  type : CommandType
  key : Bytes
  value : Bytes
  leaseID : Int
  ttl : Int
  expireAt : Int
  revision : Int
  tombstone : Bool
  expectedRev : Int
  keyPrefix : Bytes
deriving Repr, DecidableEq

/-- A composite literal that only names a type. -/
def Command.ofType (type : CommandType) : Command :=
  ⟨type, [], [], 0, 0, 0, 0, false, 0, []⟩

end Wjetcd
