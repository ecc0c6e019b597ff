import Mathlib

/-!
# TCP header compression

`net/slcompress.c` sends the header of a TCP packet over a slow line as the
differences to the header of the connection's last packet. Both ends keep
the last header of up to `MAX_STATES` connections. A packet goes out in one
of three forms: as it is, with the connection's number in the protocol
field (this is how the other end learns the header), or with its header
replaced by a byte that says what changed and the changes themselves.
-/

namespace Obsd.Slc

abbrev Byte := BitVec 8

/-- `MAX_STATES`. -/
def maxStates : Nat := 16

/-- `MAX_HDR`, the data of a small mbuf. -/
def maxHdr : Nat := 224

/-- `IPPROTO_TCP`. -/
def ipprotoTcp : Byte := 6

def newC : Byte := 0x40
def newI : Byte := 0x20
def newS : Byte := 0x08
def newA : Byte := 0x04
def newW : Byte := 0x02
def newU : Byte := 0x01
def tcpPushBit : Byte := 0x10

/-- `SPECIAL_I`: echoed interactive traffic. -/
def specialI : Byte := newS ||| newW ||| newU

/-- `SPECIAL_D`: unidirectional data. -/
def specialD : Byte := newS ||| newA ||| newW ||| newU

/-- `SPECIALS_MASK`. -/
def specialsMask : Byte := newS ||| newA ||| newW ||| newU

end Obsd.Slc
