import OpenSteamgate.Library.Endian

namespace OpenSteamgate.Protocols.Ni

inductive NIError
  | payloadTooLong
  | invalidLimit
  | payloadTooLarge
  | truncatedStream

def encodeNIFrame (payload : List UInt8) : Except NIError (List UInt8) :=
  if 0xffffffff < payload.length then .error .payloadTooLong
  else .ok (bigEndian 4 payload.length ++ payload)

abbrev Segment := Option (List UInt8)

structure NIFrameDecoder where
  segments : List Segment := []
  head : Nat := 0
  offset : Nat := 0
  buffered : Nat := 0
  failure : Option NIError := none
  maxPayloadLength : Nat

def newDecoder (maxPayloadLength : Nat) : Except NIError NIFrameDecoder :=
  if 0xffffffff < maxPayloadLength then .error .invalidLimit
  else .ok {maxPayloadLength := maxPayloadLength}

def peek : List Segment → Nat → Nat → Option (List UInt8)
  | _,_,0 => some []
  | some current :: rest,offset,need =>
    let count := min need (current.length - offset)
    (peek rest 0 (need - count)).map ((current.drop offset).take count ++ ·)
  | _,_,_ => none

def copy : List Segment → Nat → Nat → Option (List UInt8 × Nat × Nat)
  | _,offset,0 => some ([],0,offset)
  | some current :: rest,offset,need =>
    let count := min need (current.length - offset)
    let bytes := (current.drop offset).take count
    if offset + count = current.length then
      (copy rest 0 (need - count)).map fun r => (bytes ++ r.1,r.2.1 + 1,r.2.2)
    else some (bytes,0,offset + count)
  | _,_,_ => none

namespace NIFrameDecoder

def peekLength (d : NIFrameDecoder) : Option Nat :=
  (peek (d.segments.drop d.head) d.offset 4).map numberBE

def compact (d : NIFrameDecoder) : NIFrameDecoder :=
  if d.head = d.segments.length then {d with segments := [],head := 0}
  else if 64 ≤ d.head ∧ d.segments.length ≤ d.head * 2 then
    {d with segments := d.segments.drop d.head,head := 0}
  else d

def take (d : NIFrameDecoder) (length : Nat) : Option (List UInt8 × NIFrameDecoder) :=
  (copy (d.segments.drop d.head) d.offset length).map fun (output,passed,offset) =>
    (output,compact {d with
      segments := d.segments.take d.head ++ List.replicate passed none ++
        d.segments.drop (d.head + passed),
      head := d.head + passed,
      offset := offset,
      buffered := d.buffered - length})

abbrev Pushed := Option (Except NIError (List (List UInt8)) × NIFrameDecoder)

def drain : Nat → List (List UInt8) → NIFrameDecoder → Pushed
  | 0,frames,d => some (.ok frames,d)
  | n + 1,frames,d =>
    if 4 ≤ d.buffered then do
      let length ← d.peekLength
      if d.maxPayloadLength < length then
        some (.error .payloadTooLarge,{d with failure := some .payloadTooLarge})
      else if d.buffered < 4 + length then some (.ok frames,d)
      else do
        let (_,d) ← d.take 4
        let (frame,d) ← d.take length
        drain n (frames ++ [frame]) d
    else some (.ok frames,d)

def push (d : NIFrameDecoder) (chunk : List UInt8) : Pushed :=
  match d.failure with
  | some e => some (.error e,d)
  | none =>
    let d := if 0 < chunk.length then
        {d with segments := d.segments ++ [some chunk],buffered := d.buffered + chunk.length}
      else d
    drain d.buffered [] d

def finish (d : NIFrameDecoder) : Except NIError Unit :=
  match d.failure with
  | some e => .error e
  | none => if d.buffered ≠ 0 then .error .truncatedStream else .ok ()

end NIFrameDecoder

structure Delivery where
  frames : List (List UInt8)
  failure : Option NIError
  decoder : NIFrameDecoder

def deliver : NIFrameDecoder → List (List UInt8) → Option Delivery
  | d,[] => some ⟨[],none,d⟩
  | d,chunk :: chunks => do
    match ← d.push chunk with
    | (.error e,d) => some ⟨[],some e,d⟩
    | (.ok frames,d) =>
      let rest ← deliver d chunks
      some {rest with frames := frames ++ rest.frames}

end OpenSteamgate.Protocols.Ni
