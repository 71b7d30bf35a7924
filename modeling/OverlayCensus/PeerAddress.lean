/-
  OverlayCensus — the address that identifies a peer.

  A peer is named by the host and port it listens on.

  * `key` is the written form `host:port`, `ofText?` reads one: it trims blanks,
    cuts at the last colon and wants a non-empty host and a port other than 0;
  * addresses are ordered by host, then by port;
  * `firstRepeat` finds an address that a list holds twice;
  * `key_injective`: different addresses have different keys, whatever their
    hosts hold.
-/
import OverlayCensus.CoreInstances
import Std.Data.HashSet
import OverlayCensus.Text.Blank
import OverlayCensus.Decimal

namespace OverlayCensus

attribute [local instance] corePow

/-- The listening address of a peer. -/
structure PeerAddress where
  host : String
  port : UInt16
deriving DecidableEq, Hashable, Inhabited, Repr

namespace PeerAddress

/-! ## Written form -/

/-- The characters of the written form. -/
def keyChars (a : PeerAddress) : List Char :=
  a.host.toList ++ ':' :: Decimal.digits a.port.toNat

/-- The written form `host:port`. -/
def key (a : PeerAddress) : String :=
  String.ofList a.keyChars

/-- Reads the part behind the colon: a port number other than 0. -/
def readPort (cs : List Char) : Option UInt16 :=
  match Decimal.readNat (2 ^ (16 : Nat)) cs with
  | some n => if n = 0 then none else some n.toUInt16
  | none => none

/-- Reads an address from characters without blanks at the ends. -/
def readTrimmed (cs : List Char) : Option PeerAddress :=
  match Text.splitLast ':' cs with
  | none => none
  | some ([], _) => none
  | some (host, port) => (readPort port).map fun p => ⟨String.ofList host, p⟩

/-- Reads a written address, blanks at its ends allowed.  Colons in front of the
    last one belong to the host. -/
def ofText? (s : String) : Option PeerAddress :=
  readTrimmed (Text.trimChars s.toList)

theorem colon_not_mem_digits (n : Nat) : ':' ∉ Decimal.digits n :=
  Decimal.not_mem_digits (by decide) n

/-- The last colon of a key stands before its port. -/
theorem splitLast_keyChars (a : PeerAddress) :
    Text.splitLast ':' a.keyChars = some (a.host.toList, Decimal.digits a.port.toNat) :=
  Text.splitLast_append (colon_not_mem_digits _) _

/-- Different addresses have different keys. -/
theorem key_injective {a b : PeerAddress} (h : a.key = b.key) : a = b := by
  have hc : a.keyChars = b.keyChars := String.ofList_injective h
  have hs := splitLast_keyChars a
  rw [hc, splitLast_keyChars b] at hs
  simp only [Option.some.injEq, Prod.mk.injEq] at hs
  obtain ⟨hh, hp⟩ := hs
  have hp' : some b.port.toNat = some a.port.toNat := by
    rw [← Decimal.readDigits_digits, hp, Decimal.readDigits_digits]
  cases a; cases b
  simp only [Option.some.injEq] at hp'
  simp only [PeerAddress.mk.injEq]
  exact ⟨(String.toList_inj.1 hh).symm, (UInt16.toNat_inj.1 hp').symm⟩

/-! ## Order -/

instance : Ord PeerAddress where
  compare := compareLex (compareOn host) (compareOn port)

instance : Std.TransOrd PeerAddress :=
  inferInstanceAs (Std.TransCmp (compareLex (compareOn host) (compareOn port)))

instance : Std.LawfulEqOrd PeerAddress where
  eq_of_compare := by
    intro a b h
    have h' : (compare a.host b.host).then (compare a.port b.port) = .eq := h
    rw [Ordering.then_eq_eq] at h'
    have hh := Std.LawfulEqOrd.eq_of_compare h'.1
    have hp := Std.LawfulEqOrd.eq_of_compare h'.2
    cases a; cases b
    simp_all

/-- Whether `a` stands before `b`. -/
def before (a b : PeerAddress) : Bool :=
  compare a b = .lt

end PeerAddress

/-- A text that is no address. -/
structure InvalidAddress where
  text : String
deriving DecidableEq, Repr

/-- The wording of a refused address, trimmed. -/
def InvalidAddress.message (e : InvalidAddress) : String :=
  "invalid peer address: " ++ e.text

/-- Reads a written address, or tells which trimmed text was refused. -/
def PeerAddress.parse (s : String) : Except InvalidAddress PeerAddress :=
  match PeerAddress.ofText? s with
  | some a => .ok a
  | none => .error ⟨Text.trim s⟩

/-! ## Lists of addresses -/

/-- The first address of a list that stands there already, `seen` being the
    addresses in front of the list. -/
def PeerAddress.firstRepeatFrom (seen : Std.HashSet PeerAddress) :
    List PeerAddress → Option PeerAddress
  | [] => none
  | a :: as => if a ∈ seen then some a else firstRepeatFrom (seen.insert a) as

/-- The first address of a list that stands there for the second time. -/
def PeerAddress.firstRepeat (as : List PeerAddress) : Option PeerAddress :=
  firstRepeatFrom ∅ as

end OverlayCensus
