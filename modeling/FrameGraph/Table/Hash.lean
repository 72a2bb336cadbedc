/-!
# Hashing

The 64-bit FNV-1a hash: each byte is mixed into the low end and the whole is multiplied by a fixed
prime, so that equal texts have equal hashes on every run and every machine.
-/
namespace FrameGraph.Table

def hashSeed : UInt64 := 0xcbf29ce484222325

def hashPrime : UInt64 := 0x100000001b3

/-- Mixes one byte in; the product wraps at 64 bits. -/
def hashByte (h : UInt64) (byte : UInt8) : UInt64 :=
  (h ^^^ byte.toUInt64) * hashPrime

def hashBytes (bytes : ByteArray) : UInt64 :=
  bytes.foldl hashByte hashSeed

def hashText (text : String) : UInt64 :=
  hashBytes text.toUTF8

end FrameGraph.Table
