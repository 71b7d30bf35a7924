/-
  OverlayCensus — keys of the gossip tables.

  A name, or a name at a holder, is filed under the first 128 bits of a hash of
  its bytes: `nameKey` and `locationKey`.  The bytes of a location are the
  holder's address, a slash and the name.
-/
import OverlayCensus.Blake3
import OverlayCensus.PeerAddress
import OverlayCensus.Text.Utf8
import OverlayCensus.Uuid

namespace OverlayCensus.Gossip

/-- The identifier that some bytes hash to. -/
def hashKey (bytes : List UInt8) : Uuid :=
  Uuid.ofBytes (Blake3.hash 16 bytes)

/-- The key of a name. -/
def nameKey (name : String) : Uuid :=
  hashKey (Utf8.encode name)

/-- The bytes that stand for a name at a holder. -/
def locationBytes (holder : PeerAddress) (name : String) : List UInt8 :=
  Utf8.encode holder.key ++ Utf8.encode "/" ++ Utf8.encode name

/-- The key of a name at a holder. -/
def locationKey (holder : PeerAddress) (name : String) : Uuid :=
  hashKey (locationBytes holder name)

end OverlayCensus.Gossip
