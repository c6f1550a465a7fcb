import OpenSteamgate.Library.Outcome
import OpenSteamgate.Library.StepMachine
import OpenSteamgate.Text.Sections

namespace OpenSteamgate.Text

namespace Xbuf

structure Buffer where
  array : List UInt8
  len : Nat
  fits : len ≤ array.length

namespace Buffer

def bytes (b : Buffer) : List UInt8 := b.array.take b.len

def nil : Buffer := ⟨[],0,Nat.le_refl 0⟩

def overwrite (array value : List UInt8) (k : Nat) : List UInt8 :=
  array.take k ++ value ++ array.drop (k + value.length)

theorem length_overwrite (array value : List UInt8) (k : Nat) :
    array.length ≤ (overwrite array value k).length := by
  simp only [overwrite,List.length_append,List.length_take,List.length_drop]
  omega

def appendAt (spare : Nat → Nat → Nat) (b : Buffer) (k : Nat) (value : List UInt8) : Buffer :=
  if k + value.length ≤ b.array.length then
    ⟨overwrite b.array value k,(b.array.take k ++ value).length,by simp [overwrite]⟩
  else
    ⟨b.array.take k ++ value ++ List.replicate (spare b.array.length (k + value.length)) 0,
      (b.array.take k ++ value).length,by simp⟩

def copyInto (b : Buffer) (start stop : Nat) (value : List UInt8) : Buffer :=
  ⟨overwrite b.array (value.take (stop - start)) start,b.len,
    b.fits.trans (length_overwrite ..)⟩

end Buffer

abbrev Field := {v : List UInt8 // v.length < 2 ^ 31}

inductive Op
  | set (value : List UInt8)
  | clear
  | append (parts : List (List UInt8))
  | replace (with' : List UInt8) (off n : Int32)
  | sub (off n : Int32)
  | snapshot
  | readInto (dst : List UInt8) (off n : Int32)
  | storeFrom (src : Field) (off : Int32)
  | byte (off : Int32)
  | storeByte (value : UInt8) (off : Int32)

inductive Answer
  | done
  | subrc (n : Int32)
  | bytes (v : List UInt8)

section buffer

variable (spare : Nat → Nat → Nat) (b : Buffer)

def set (value : List UInt8) : Buffer :=
  let b := if value.length < b.array.length / 4 then .nil else b
  b.appendAt spare 0 value

def append (parts : List (List UInt8)) : Buffer :=
  parts.foldl (fun b part => b.appendAt spare b.len part) b

def sub (off n : Int32) : Except Raise (List UInt8) := do
  let n := if n < 0 then Bytesection.noLength else n
  let (start,stop) ← Bytesection.bounds b.len off n
  slice b.bytes start stop

def replace (with' : List UInt8) (off n : Int32) : Except Raise Buffer := do
  let (start,stop) ← Bytesection.bounds b.len off n
  if (with'.length : Int) = stop - start then
    .ok (b.copyInto start.toNat stop.toNat with')
  else
    let tail := b.bytes.drop stop.toNat
    let b := b.appendAt spare start.toNat with'
    .ok (b.appendAt spare b.len tail)

def readInto (dst : List UInt8) (off n : Int32) : Except Raise (List UInt8) := do
  let (start,stop) ← Bytesection.bounds b.len off n
  let read ← slice b.bytes start stop
  let copied := read.take dst.length
  .ok (copied ++ List.replicate (dst.length - copied.length) 0)

def storeFrom (src : List UInt8) (off : Int32) : Except Raise Buffer := do
  let (start,stop) ← Bytesection.bounds b.len off (Int32.ofInt src.length)
  .ok (b.copyInto start.toNat stop.toNat src)

def byte (off : Int32) : Except Raise UInt8 := do
  let (start,_) ← Bytesection.bounds b.len off 1
  match b.bytes[start.toNat]? with
  | some x => .ok x
  | none => .error .index

def storeByte (value : UInt8) (off : Int32) : Except Raise Buffer := do
  let (start,_) ← Bytesection.bounds b.len off 1
  if start.toNat < b.len then .ok (b.copyInto start.toNat (start.toNat + 1) [value])
  else .error .index

def wrote {α : Type} (s : α) (r : Except Raise α) (answer : Answer) : α × Except Raise Answer :=
  match r with
  | .ok s' => (s',.ok answer)
  | .error e => (s,.error e)

def step (b : Buffer) : Op → Buffer × Except Raise Answer
  | .set value => (set spare b value,.ok .done)
  | .clear => (.nil,.ok .done)
  | .append parts => (append spare b parts,.ok .done)
  | .replace with' off n => wrote b (replace spare b with' off n) (.subrc 0)
  | .sub off n => (b,(sub b off n).map .bytes)
  | .snapshot => (b,.ok (.bytes b.bytes))
  | .readInto dst off n => (b,(readInto b dst off n).map .bytes)
  | .storeFrom src off => wrote b (storeFrom b src off) (.subrc 0)
  | .byte off => (b,(byte b off).map fun x => .bytes [x])
  | .storeByte value off => wrote b (storeByte b value off) (.subrc 0)

end buffer

def machine (spare : Nat → Nat → Nat) : StepMachine Buffer Op (Except Raise Answer) := ⟨step spare⟩

def sectionOf (v : List UInt8) (off n : Int32) : Except Raise (List UInt8) := do
  let (start,stop) ← Bytesection.bounds v.length off n
  slice v start stop

def plainStep (v : List UInt8) : Op → List UInt8 × Except Raise Answer
  | .set value => (value,.ok .done)
  | .clear => ([],.ok .done)
  | .append parts => (v ++ parts.flatten,.ok .done)
  | .replace with' off n => wrote v (Bytesection.replace v with' off n) (.subrc 0)
  | .sub off n => (v,(sectionOf v off (if n < 0 then Bytesection.noLength else n)).map .bytes)
  | .snapshot => (v,.ok (.bytes v))
  | .readInto dst off n =>
    (v,(sectionOf v off n >>= fun w => xFit w dst.length).map .bytes)
  | .storeFrom src off =>
    wrote v (Bytesection.replace v src off (Int32.ofInt src.1.length)) (.subrc 0)
  | .byte off => (v,(sectionOf v off 1).map .bytes)
  | .storeByte value off => wrote v (Bytesection.replace v [value] off 1) (.subrc 0)

def plain : StepMachine (List UInt8) Op (Except Raise Answer) := ⟨plainStep⟩

section slices

variable {spare : Nat → Nat → Nat} {b : Buffer} {value : List UInt8} {k start stop : Nat}

theorem length_bytes (b : Buffer) : b.bytes.length = b.len := by
  rw [Buffer.bytes,List.length_take]
  exact Nat.min_eq_left b.fits

theorem bytes_appendAt (hk : k ≤ b.len) :
    (b.appendAt spare k value).bytes = b.bytes.take k ++ value := by
  have htake : b.bytes.take k = b.array.take k := by
    rw [Buffer.bytes,List.take_take,Nat.min_eq_left hk]
  rw [htake,Buffer.appendAt]
  split
  · exact List.take_left
  · exact List.take_left

theorem bytes_copyInto (hstart : start ≤ stop) (hstop : stop ≤ b.len)
    (hlen : value.length = stop - start) :
    (b.copyInto start stop value).bytes = b.bytes.take start ++ value ++ b.bytes.drop stop := by
  have hfits := b.fits
  have hvalue : value.take (stop - start) = value := List.take_of_length_le hlen.le
  have hend : start + value.length = stop := by omega
  have harray : (b.copyInto start stop value).bytes =
      (b.array.take start ++ value ++ b.array.drop stop).take b.len := by
    change (Buffer.overwrite b.array (value.take (stop - start)) start).take b.len = _
    rw [hvalue,Buffer.overwrite,hend]
  have hfront : (b.array.take start ++ value).length = stop := by
    rw [List.length_append,List.length_take]
    omega
  rw [harray,List.take_append,hfront,List.take_of_length_le (hfront.le.trans hstop),Buffer.bytes,
    List.take_take,Nat.min_eq_left (hstart.trans hstop),List.drop_take]

theorem bounds_ok {size : Nat} {off n : Int32} {i j : Int}
    (h : Bytesection.bounds size off n = .ok (i,j)) :
    0 ≤ i ∧ i ≤ j ∧ j ≤ size ∧ (0 ≤ n.toInt → j - i = n.toInt) := by
  have hanswers := bounds_answers size off n
  by_cases hin : Within size off n ∧ (0 ≤ n.toInt ∨ n = Bytesection.noLength)
  · obtain ⟨w,hw,rfl⟩ := hanswers.1 hin
    rw [h] at hw
    cases hw
    have hnonneg := hin.1.nonneg
    have hstart := hin.1.start
    by_cases hn : 0 ≤ n.toInt
    · have hstop := hin.1.stop hn
      rw [endOf_nonneg hn]
      omega
    · rw [endOf_neg (by omega)]
      omega
  · rw [hanswers.2 hin] at h
    cases h

theorem bounds_error {size : Nat} {off n : Int32} {e : Raise}
    (h : Bytesection.bounds size off n = .error e) : e = .rangeOutOfBounds := by
  have hanswers := bounds_answers size off n
  by_cases hin : Within size off n ∧ (0 ≤ n.toInt ∨ n = Bytesection.noLength)
  · obtain ⟨w,hw,-⟩ := hanswers.1 hin
    rw [hw] at h
    cases h
  · rw [hanswers.2 hin] at h
    cases h
    rfl

end slices

section operations

variable {spare : Nat → Nat → Nat} {b : Buffer} {off n : Int32}

theorem bytes_set (value : List UInt8) : (set spare b value).bytes = value := by
  unfold set
  exact bytes_appendAt (Nat.zero_le _)

theorem bytes_append (parts : List (List UInt8)) :
    (append spare b parts).bytes = b.bytes ++ parts.flatten := by
  induction parts generalizing b with
  | nil => exact (List.append_nil _).symm
  | cons part parts ih =>
    have hpart : (b.appendAt spare b.len part).bytes = b.bytes ++ part := by
      rw [bytes_appendAt le_rfl,List.take_of_length_le (length_bytes b).le]
    have hall := ih (b := b.appendAt spare b.len part)
    rw [hpart,List.append_assoc] at hall
    exact hall

def Stands (r : Except Raise Buffer) (r' : Except Raise (List UInt8)) : Prop :=
  r.map Buffer.bytes = r'

theorem replace_stands (with' : List UInt8) :
    Stands (replace spare b with' off n) (Bytesection.replace b.bytes with' off n) := by
  unfold Stands replace Bytesection.replace
  rw [length_bytes]
  cases hbounds : Bytesection.bounds b.len off n with
  | error e => rfl
  | ok ij =>
    obtain ⟨i,j⟩ := ij
    obtain ⟨hi,hij,hj,-⟩ := bounds_ok hbounds
    have hlen := length_bytes b
    change Except.map Buffer.bytes (if (with'.length : Int) = j - i then _ else _) =
      (slice b.bytes 0 i >>= _)
    rw [slice_ok le_rfl hi (by omega)]
    change _ = (slice b.bytes j b.len >>= _)
    rw [slice_ok (by omega) hj (by omega)]
    have hbefore : (b.bytes.drop (0 : Int).toNat).take (i - 0).toNat = b.bytes.take i.toNat := by
      rw [Int.sub_zero]
      rfl
    have hafter : (b.bytes.drop j.toNat).take ((b.len : Int) - j).toNat = b.bytes.drop j.toNat := by
      refine List.take_of_length_le ?_
      rw [List.length_drop]
      omega
    rw [hbefore,hafter]
    split
    · next heq =>
      exact congrArg Except.ok (bytes_copyInto (by omega) (by omega) (by omega))
    · have hfirst : (b.appendAt spare i.toNat with').bytes = b.bytes.take i.toNat ++ with' :=
        bytes_appendAt (by omega)
      refine congrArg Except.ok ((bytes_appendAt le_rfl).trans ?_)
      rw [List.take_of_length_le (length_bytes _).le,hfirst]

theorem storeFrom_stands (src : Field) :
    Stands (storeFrom b src off)
      (Bytesection.replace b.bytes src off (Int32.ofInt src.1.length)) := by
  have h : Stands (replace (fun _ _ => 0) b src off (Int32.ofInt src.1.length)) _ :=
    replace_stands src.1
  unfold replace at h
  unfold storeFrom
  cases hbounds : Bytesection.bounds b.len off (Int32.ofInt src.1.length) with
  | error e =>
    rw [hbounds] at h
    exact h
  | ok ij =>
    obtain ⟨i,j⟩ := ij
    have hfield := src.2
    have hcount : (Int32.ofInt src.1.length).toInt = src.1.length :=
      Int32.toInt_ofInt_of_le (by omega) (by omega)
    have hsize : (src.1.length : Int) = j - i := by
      rw [(bounds_ok hbounds).2.2.2 (by omega),hcount]
    rw [hbounds] at h
    change Stands (if (src.1.length : Int) = j - i then _ else _) _ at h
    rw [if_pos hsize] at h
    exact h

theorem storeByte_stands (value : UInt8) :
    Stands (storeByte b value off) (Bytesection.replace b.bytes [value] off 1) := by
  have h : Stands (replace (fun _ _ => 0) b [value] off 1) _ := replace_stands [value]
  unfold replace at h
  unfold storeByte
  cases hbounds : Bytesection.bounds b.len off 1 with
  | error e =>
    rw [hbounds] at h
    exact h
  | ok ij =>
    obtain ⟨i,j⟩ := ij
    obtain ⟨hi,hij,hj,hone⟩ := bounds_ok hbounds
    have hsize : (([value] : List UInt8).length : Int) = j - i := (hone (by decide)).symm
    have hin : i.toNat < b.len := by
      rw [List.length_singleton] at hsize
      omega
    have hstop : j.toNat = i.toNat + 1 := by
      rw [List.length_singleton] at hsize
      omega
    rw [hbounds] at h
    change Stands (if (([value] : List UInt8).length : Int) = j - i then _ else _) _ at h
    rw [if_pos hsize,hstop] at h
    change Stands (if i.toNat < b.len then _ else _) _
    rw [if_pos hin]
    exact h

theorem sectionOf_bytes : sectionOf b.bytes off n =
    (Bytesection.bounds b.len off n >>= fun ij => slice b.bytes ij.1 ij.2) := by
  unfold sectionOf
  rw [length_bytes]

theorem readInto_eq (dst : List UInt8) :
    readInto b dst off n = (sectionOf b.bytes off n >>= fun w => xFit w dst.length) := by
  rw [sectionOf_bytes]
  unfold readInto
  cases hbounds : Bytesection.bounds b.len off n with
  | error e => rfl
  | ok ij =>
    obtain ⟨i,j⟩ := ij
    change (slice b.bytes i j >>= _) = (slice b.bytes i j >>= _)
    cases hslice : slice b.bytes i j with
    | error e => rfl
    | ok w =>
      change Except.ok (w.take dst.length ++
        List.replicate (dst.length - (w.take dst.length).length) 0) = xFit w dst.length
      rw [xFit]
      split
      · next hlen =>
        rw [slice_ok le_rfl (by omega) hlen,List.length_take,Nat.min_eq_left (by omega),Nat.sub_self]
        exact congrArg Except.ok (List.append_nil _)
      · next hlen =>
        rw [List.take_of_length_le (by omega)]
        congr 3
        omega

theorem byte_eq : (byte b off).map (fun x => [x]) = sectionOf b.bytes off 1 := by
  rw [sectionOf_bytes]
  unfold byte
  cases hbounds : Bytesection.bounds b.len off 1 with
  | error e => rfl
  | ok ij =>
    obtain ⟨i,j⟩ := ij
    obtain ⟨hi,hij,hj,hone⟩ := bounds_ok hbounds
    have hone := hone (by decide)
    have hlen := length_bytes b
    have hn : (1 : Int32).toInt = 1 := by decide
    have hin : i.toNat < b.bytes.length := by omega
    change Except.map _ (match b.bytes[i.toNat]? with | some x => Except.ok x | none => _) = slice b.bytes i j
    rw [slice_ok hi hij (by omega),List.getElem?_eq_getElem hin,List.drop_eq_getElem_cons hin]
    have hwidth : (j - i).toNat = 1 := by omega
    rw [hwidth]
    rfl

end operations

section runs

variable {spare : Nat → Nat → Nat} {b : Buffer}

theorem wrote_stands {r : Except Raise Buffer} {r' : Except Raise (List UInt8)} (h : Stands r r')
    (answer : Answer) :
    (wrote b r answer).1.bytes = (wrote b.bytes r' answer).1 ∧
      (wrote b r answer).2 = (wrote b.bytes r' answer).2 := by
  cases h
  cases r with
  | ok s => exact ⟨rfl,rfl⟩
  | error e => exact ⟨rfl,rfl⟩

theorem step_bytes (b : Buffer) (op : Op) :
    (step spare b op).1.bytes = (plainStep b.bytes op).1 ∧
      (step spare b op).2 = (plainStep b.bytes op).2 := by
  cases op with
  | set value => exact ⟨bytes_set value,rfl⟩
  | clear => exact ⟨rfl,rfl⟩
  | append parts => exact ⟨bytes_append parts,rfl⟩
  | replace with' off n => exact wrote_stands (replace_stands with') (.subrc 0)
  | sub off n =>
    refine ⟨rfl,?_⟩
    rw [plainStep,sectionOf_bytes]
    rfl
  | snapshot => exact ⟨rfl,rfl⟩
  | readInto dst off n => exact ⟨rfl,congrArg (Except.map Answer.bytes) (readInto_eq dst)⟩
  | storeFrom src off => exact wrote_stands (storeFrom_stands src) (.subrc 0)
  | byte off =>
    refine ⟨rfl,?_⟩
    rw [plainStep,← byte_eq]
    change Except.map _ (byte b off) = Except.map _ (Except.map _ (byte b off))
    cases byte b off with
    | ok x => rfl
    | error e => rfl
  | storeByte value off => exact wrote_stands (storeByte_stands value) (.subrc 0)

theorem sectionOf_error {v : List UInt8} {off n : Int32} {e : Raise}
    (h : sectionOf v off n = .error e) : e = .rangeOutOfBounds := by
  unfold sectionOf at h
  cases hbounds : Bytesection.bounds v.length off n with
  | error e' =>
    rw [hbounds] at h
    cases h
    exact bounds_error hbounds
  | ok ij =>
    obtain ⟨i,j⟩ := ij
    obtain ⟨hi,hij,hj,-⟩ := bounds_ok hbounds
    rw [hbounds] at h
    change slice v i j = _ at h
    rw [slice_ok hi hij hj] at h
    cases h

theorem replace_error {v with' : List UInt8} {off n : Int32} {e : Raise}
    (h : Bytesection.replace v with' off n = .error e) : e = .rangeOutOfBounds := by
  have hanswers := replace_answers v with' off n
  by_cases hin : Within v.length off n ∧ (0 ≤ n.toInt ∨ n = Bytesection.noLength)
  · obtain ⟨w,hw,-⟩ := hanswers.1 hin
    rw [hw] at h
    cases h
  · rw [hanswers.2 hin] at h
    cases h
    rfl

theorem wrote_error {s : List UInt8} {r : Except Raise (List UInt8)} {answer : Answer} {e : Raise}
    (h : (wrote s r answer).2 = .error e) : r = .error e ∧ (wrote s r answer).1 = s := by
  cases r with
  | ok s' => cases h
  | error e' =>
    cases h
    exact ⟨rfl,rfl⟩

theorem map_error {α β : Type} {g : α → β} {r : Except Raise α} {e : Raise}
    (h : r.map g = .error e) : r = .error e := by
  cases r with
  | ok a => cases h
  | error e' => exact congrArg Except.error (Except.error.inj h)

theorem plainStep_error {v : List UInt8} {op : Op} {e : Raise} (h : (plainStep v op).2 = .error e) :
    e = .rangeOutOfBounds ∧ (plainStep v op).1 = v := by
  cases op with
  | set value => cases h
  | clear => cases h
  | append parts => cases h
  | replace with' off n =>
    obtain ⟨hr,hs⟩ := wrote_error h
    exact ⟨replace_error hr,hs⟩
  | sub off n => exact ⟨sectionOf_error (map_error h),rfl⟩
  | snapshot => cases h
  | readInto dst off n =>
    refine ⟨?_,rfl⟩
    have h := map_error h
    cases hsection : sectionOf v off n with
    | error e' =>
      rw [hsection] at h
      cases h
      exact sectionOf_error hsection
    | ok w =>
      rw [hsection] at h
      obtain ⟨w',hw',-⟩ := xFit_ok w dst.length
      change xFit w dst.length = _ at h
      rw [hw'] at h
      cases h
  | storeFrom src off =>
    obtain ⟨hr,hs⟩ := wrote_error h
    exact ⟨replace_error hr,hs⟩
  | byte off => exact ⟨sectionOf_error (map_error h),rfl⟩
  | storeByte value off =>
    obtain ⟨hr,hs⟩ := wrote_error h
    exact ⟨replace_error hr,hs⟩

theorem buffer_refines (spare : Nat → Nat → Nat) (b : Buffer) (ops : List Op) :
    (machine spare).answers b ops = plain.answers b.bytes ops ∧
      ((machine spare).run b ops).bytes = plain.run b.bytes ops ∧
      ∀ op e, ((machine spare).step ((machine spare).run b ops) op).2 = .error e →
        e = .rangeOutOfBounds ∧
          ((machine spare).step ((machine spare).run b ops) op).1.bytes =
            ((machine spare).run b ops).bytes := by
  refine ⟨?_,?_,?_⟩
  · induction ops generalizing b with
    | nil => rfl
    | cons op ops ih =>
      obtain ⟨hbytes,hanswer⟩ := @step_bytes spare b op
      have hrest := ih (step spare b op).1
      rw [hbytes] at hrest
      exact congrArg₂ List.cons hanswer hrest
  · induction ops generalizing b with
    | nil => rfl
    | cons op ops ih =>
      have hrest := ih (step spare b op).1
      rw [(step_bytes b op).1] at hrest
      exact hrest
  · intro op e h
    obtain ⟨hbytes,hanswer⟩ := @step_bytes spare ((machine spare).run b ops) op
    obtain ⟨he,hs⟩ := plainStep_error (hanswer.symm.trans h)
    exact ⟨he,hbytes.trans hs⟩

theorem buffer_refines_splice :
    ((machine fun _ n => n).run .nil [.set [1,2,3],.replace [9,9] 1 1]).bytes = [1,9,9,3] ∧
      ((machine fun _ n => n).step
          ((machine fun _ n => n).run .nil [.set [1,2,3],.replace [9,9] 1 1])
          (.storeByte 0 4)).1.bytes = [1,9,9,3] := by
  obtain ⟨-,hrun,herror⟩ := buffer_refines (fun _ n => n) .nil [.set [1,2,3],.replace [9,9] 1 1]
  exact ⟨hrun,(herror (.storeByte 0 4) .rangeOutOfBounds rfl).2.trans hrun⟩

end runs

end Xbuf

end OpenSteamgate.Text
