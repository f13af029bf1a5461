import TorAndroid.Dns.DomainMatch

namespace TorAndroid.Dns

def dnsNameBufSize : Nat := 256

/-- `compel_t`: a name and the offset it was written at. -/
structure CompEl where
  index : Nat
  s : List UInt8
  deriving DecidableEq

/-- The best reference found so far. -/
structure Best where
  longest : Nat
  lrem : Nat
  coffs : Nat
  deriving DecidableEq

/-- One turn of the loop over the list.  Offsets are `unsigned int`. -/
def tryEntry (inn : List UInt8) (best : Best) (ci : CompEl) : Option Best := do
  let (rv, rem, tgo) ← domainMatch inn ci.s
  if best.longest < rv then
    let newoffs := (ci.index + tgo) % 2 ^ 32
    if newoffs ≤ 0x3fff then some ⟨rv, rem, newoffs⟩
    else some best
  else some best

/-- The two bytes of a reference. -/
def pointerBytes (coffs : Nat) : List UInt8 :=
  [UInt8.ofNat (0xc0 ||| ((coffs &&& 0x3f00) >>> 8)), UInt8.ofNat (coffs &&& 0xff)]

/-- `compress_name`: the bytes to be written and the extended list.  Nothing when
an assertion fails. -/
def compressName (inn : List UInt8) (offs : Nat) (cb : List CompEl) :
    Option (List UInt8 × List CompEl) := do
  let ilen := rhnlen inn
  if dnsNameBufSize < ilen then none
  else
    let best ← cb.foldlM (tryEntry inn) ⟨0, 0, 0⟩
    if 0 < best.longest then
      if ilen < best.lrem + 2 then none
      else
        let out := inn.take best.lrem ++ pointerBytes best.coffs
        if best.lrem ≠ 0 then some (out, cb ++ [⟨offs, inn.take ilen⟩])
        else some (out, cb)
    else some (inn.take ilen, cb ++ [⟨offs, inn.take ilen⟩])

/-- The return codes of `decompress_name` other than `RC_OK`. -/
inductive NameError where
  | format
  | trunc
  deriving DecidableEq

def byteAt (msg : List UInt8) (p : Nat) : UInt8 :=
  msg.getD p 0

def copyBytes (msg : List UInt8) (p n : Nat) : List UInt8 :=
  (msg.drop p).take n

/-- The offset in the two bytes of a reference. -/
def pointerOffset (hi lo : UInt8) : Nat :=
  ((hi.toNat &&& 0x3f) <<< 8) ||| lo.toNat

/-- The second loop of `decompress_name`, after a reference was followed.  A turn
follows one reference or copies one segment, and there can be 255 of the former
and 128 of the latter. -/
def jumpedLoop (msg : List UInt8) : Nat → Nat → Nat → List UInt8 → Except NameError (List UInt8)
  | 0, _, _, _ => .error .format
  | fuel + 1, lptr, hops, tgt =>
      let lb := byteAt msg lptr
      if 0x3f < lb then
        if lb < 0xc0 then .error .format
        else if msg.length ≤ lptr + 1 then .error .format
        else if 255 < hops + 1 then .error .format
        else
          let offs := pointerOffset lb (byteAt msg (lptr + 1))
          if msg.length ≤ offs then .error .format
          else jumpedLoop msg fuel offs (hops + 1) tgt
      else if lb = 0 then .ok (tgt ++ [lb])
      else if msg.length ≤ lptr + 1 + lb.toNat then .error .format
      else if dnsNameBufSize - 1 < tgt.length + 1 + lb.toNat then .error .format
      else jumpedLoop msg fuel (lptr + 1 + lb.toNat) hops
        (tgt ++ lb :: copyBytes msg (lptr + 1) lb.toNat)

/-- The first loop, which also counts what is left of the data field.  The result
is the name and the number of bytes left. -/
def decompressLoop (msg : List UInt8) :
    Nat → Nat → Nat → List UInt8 → Except NameError (List UInt8 × Nat)
  | 0, _, _, _ => .error .format
  | fuel + 1, lptr, newsz, tgt =>
      let lb := byteAt msg lptr
      if 0x3f < lb then
        if lb < 0xc0 then .error .format
        else if newsz - 1 = 0 then .error .trunc
        else if msg.length ≤ lptr + 1 then .error .format
        else
          let offs := pointerOffset lb (byteAt msg (lptr + 1))
          if msg.length ≤ offs then .error .format
          else do
            let name ← jumpedLoop msg 512 offs 1 tgt
            .ok (name, newsz - 2)
      else if lb = 0 then .ok (tgt ++ [lb], newsz - 1)
      else if newsz - 1 ≤ lb.toNat then .error .trunc
      else if msg.length ≤ lptr + 1 + lb.toNat then .error .format
      else if dnsNameBufSize - 1 < tgt.length + 1 + lb.toNat then .error .format
      else decompressLoop msg fuel (lptr + 1 + lb.toNat) (newsz - 1 - lb.toNat)
        (tgt ++ lb :: copyBytes msg (lptr + 1) lb.toNat)

/-- `decompress_name` at offset `src` of the message, with `sz` bytes left of the
data the name is in: the name, and the bytes left after it. -/
def decompressName (msg : List UInt8) (src sz : Nat) : Except NameError (List UInt8 × Nat) :=
  if sz = 0 then .error .trunc
  else if msg.length ≤ src then .error .format
  else decompressLoop msg 256 src sz []

end TorAndroid.Dns
