import IndexedStore.Cbor

/-!
Reading the binary form. Arrays, maps, texts and byte strings may be of open length, ended by a
break; arrays and maps nest up to a limit; bytes after the first item are left over.
-/
namespace IndexedStore.Cbor

def nestingLimit : Nat := 256

inductive Argument where
  | number (width n : Nat)
  | openLength

def takeHead : Bytes → Option (Nat × Argument × Bytes)
  | [] => none
  | first :: rest =>
    let major := first.toNat / 32
    let info := first.toNat % 32
    let wide (width : Nat) : Option (Nat × Argument × Bytes) :=
      (Bytes.takeExactly width rest).map fun (bs, rest) => (major, .number width bs.toNat, rest)
    if info < 24 then some (major, .number 0 info, rest)
    else if info = 24 then wide 1
    else if info = 25 then wide 2
    else if info = 26 then wide 4
    else if info = 27 then wide 8
    else if info = 31 then some (major, .openLength, rest)
    else none

/-- The chunks of a byte string or text of open length; open chunks may nest. `read` holds the
chunks before, last first. -/
def takeChunks (fuel major nested : Nat) (read : List Bytes) (bs : Bytes) :
    Option (List Bytes × Bytes) :=
  match fuel with
  | 0 => none
  | fuel + 1 =>
    match takeHead bs with
    | some (7, .openLength, rest) =>
      if nested ≤ 1 then some (read.reverse, rest)
      else takeChunks fuel major (nested - 1) read rest
    | some (m, .number _ n, rest) =>
      if m = major then
        match Bytes.takeExactly n rest with
        | some (chunk, rest) => takeChunks fuel major nested (chunk :: read) rest
        | none => none
      else none
    | some (m, .openLength, rest) =>
      if m = major then takeChunks fuel major (nested + 1) read rest else none
    | none => none

def chunksText? (chunks : List Bytes) : Option String :=
  (chunks.mapM Bytes.toText?).map String.join

def widenBits (f : BinaryFormat) (b : Nat) : Number :=
  Number.widen f (f.codes ≤ b) (b % f.codes)

def simple? (width n : Nat) : Option Cbor :=
  match width with
  | 2 => some (.float (widenBits .binary16 n))
  | 4 => some (.float (widenBits .binary32 n))
  | 8 => some (.float (Number.ofBits n))
  | _ =>
    match n with
    | 20 => some (.bool false)
    | 21 => some (.bool true)
    | 22 => some .null
    | 23 => some .undefined
    | _ => none

def takeBreak : Bytes → Option Bytes
  | 0xff :: rest => some rest
  | _ => none

mutual

def takeItem (fuel depth : Nat) (bs : Bytes) : Option (Cbor × Bytes) :=
  match fuel with
  | 0 => none
  | fuel + 1 =>
    match takeHead bs with
    | some (0, .number _ n, rest) => some (.unsigned n, rest)
    | some (1, .number _ n, rest) => some (.negative n, rest)
    | some (2, .number _ n, rest) =>
      (Bytes.takeExactly n rest).map fun (chunk, rest) => (.bytes false chunk, rest)
    | some (2, .openLength, rest) =>
      (takeChunks fuel 2 1 [] rest).map fun (chunks, rest) => (.bytes true chunks.flatten, rest)
    | some (3, .number _ n, rest) =>
      match Bytes.takeExactly n rest with
      | some (chunk, rest) => (Bytes.toText? chunk).map fun s => (.text false s, rest)
      | none => none
    | some (3, .openLength, rest) =>
      match takeChunks fuel 3 1 [] rest with
      | some (chunks, rest) => (chunksText? chunks).map fun s => (.text true s, rest)
      | none => none
    | some (4, argument, rest) =>
      match depth, argument with
      | 0, _ => none
      | depth + 1, .number _ n => takeItems fuel depth n [] rest
      | depth + 1, .openLength => takeOpenItems fuel depth [] rest
    | some (5, argument, rest) =>
      match depth, argument with
      | 0, _ => none
      | depth + 1, .number _ n => takeEntries fuel depth n [] rest
      | depth + 1, .openLength => takeOpenEntries fuel depth [] rest
    | some (6, .number _ tag, rest) =>
      (takeItem fuel depth rest).map fun (item, rest) => (.tagged tag item, rest)
    | some (7, .number width n, rest) => (simple? width n).map fun item => (item, rest)
    | _ => none

def takeItems (fuel depth n : Nat) (read : List Cbor) (bs : Bytes) : Option (Cbor × Bytes) :=
  match n, fuel with
  | 0, _ => some (.array read.reverse, bs)
  | _ + 1, 0 => none
  | n + 1, fuel + 1 =>
    match takeItem fuel depth bs with
    | some (item, rest) => takeItems fuel depth n (item :: read) rest
    | none => none

def takeOpenItems (fuel depth : Nat) (read : List Cbor) (bs : Bytes) : Option (Cbor × Bytes) :=
  match fuel with
  | 0 => none
  | fuel + 1 =>
    match takeBreak bs with
    | some rest => some (.array read.reverse, rest)
    | none =>
      match takeItem fuel depth bs with
      | some (item, rest) => takeOpenItems fuel depth (item :: read) rest
      | none => none

def takeEntries (fuel depth n : Nat) (read : List (Cbor × Cbor)) (bs : Bytes) :
    Option (Cbor × Bytes) :=
  match n, fuel with
  | 0, _ => some (.map read.reverse, bs)
  | _ + 1, 0 => none
  | n + 1, fuel + 1 =>
    match takeItem fuel depth bs with
    | some (key, rest) =>
      match takeItem fuel depth rest with
      | some (item, rest) => takeEntries fuel depth n ((key, item) :: read) rest
      | none => none
    | none => none

def takeOpenEntries (fuel depth : Nat) (read : List (Cbor × Cbor)) (bs : Bytes) :
    Option (Cbor × Bytes) :=
  match fuel with
  | 0 => none
  | fuel + 1 =>
    match takeBreak bs with
    | some rest => some (.map read.reverse, rest)
    | none =>
      match takeItem fuel depth bs with
      | some (key, rest) =>
        match takeItem fuel depth rest with
        | some (item, rest) => takeOpenEntries fuel depth ((key, item) :: read) rest
        | none => none
      | none => none

end

def read? (bs : Bytes) : Option Cbor :=
  (takeItem (2 * bs.length + 2) nestingLimit bs).map (·.1)

end IndexedStore.Cbor
