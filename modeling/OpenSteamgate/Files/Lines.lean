import OpenSteamgate.Files.Statements

namespace OpenSteamgate.Files

open Text Wtf8
open Dataset (Mode)

variable {memos : Memos} {s s' : Session} {name : Name} {binary : Bool}
  {content b line before rest : Bytes} {d : Data} {ds : List Data} {pos : Nat}

section lines

variable {chunk : Nat}

theorem idxOf_line (hline : lineFeed ∉ line) :
    (line ++ lineFeed :: rest).idxOf? lineFeed = some line.length := by
  rw [List.idxOf?_eq_some_iff]
  refine ⟨by simp,by simp,fun j hj => ?_⟩
  have hlen : j < line.length := hj
  rw [List.getElem_append_left hlen]
  exact fun heq => hline (heq ▸ List.getElem_mem hlen)

theorem lineAt_line (hchunk : 0 < chunk) (before line rest : Bytes) (hline : lineFeed ∉ line) :
    lineAt chunk (before ++ (line ++ lineFeed :: rest)) before.length =
      (line,before.length + (line.length + 1),true) := by
  induction hn : line.length using Nat.strong_induction_on generalizing before line with
  | _ n ih =>
    have hpart : Record.readAt (before ++ (line ++ lineFeed :: rest)) before.length chunk =
        (line ++ lineFeed :: rest).take chunk := by
      rw [Record.readAt,List.drop_left]
    rw [lineAt,hpart]
    dsimp only
    rcases Nat.lt_or_ge line.length chunk with hshort | hlong
    · have htake : (line ++ lineFeed :: rest).take chunk =
          line ++ lineFeed :: rest.take (chunk - line.length - 1) := by
        rw [List.take_append,List.take_of_length_le (Nat.le_of_lt hshort)]
        obtain ⟨k,hk⟩ := Nat.exists_eq_succ_of_ne_zero (Nat.sub_ne_zero_of_lt hshort)
        rw [hk,List.take_succ_cons,Nat.succ_sub_one]
      rw [htake,dif_neg (List.append_ne_nil_of_right_ne_nil _ (List.cons_ne_nil _ _)),idxOf_line hline]
      dsimp only
      rw [List.take_left,hn]
    · have htake : (line ++ lineFeed :: rest).take chunk = line.take chunk :=
        List.take_append_of_le_length hlong
      have hnone : (line.take chunk).idxOf? lineFeed = none :=
        List.idxOf?_eq_none_iff.mpr fun hin => hline (List.mem_of_mem_take hin)
      have hlen : (line.take chunk).length = chunk := List.length_take_of_le hlong
      have hne : line.take chunk ≠ [] := List.length_pos_iff.mp (hlen.symm ▸ hchunk)
      have hcontent : before ++ (line ++ lineFeed :: rest) =
          (before ++ line.take chunk) ++ (line.drop chunk ++ lineFeed :: rest) := by
        rw [List.append_assoc,← List.append_assoc (line.take chunk),List.take_append_drop]
      have hrest := ih (line.drop chunk).length (by rw [List.length_drop]; omega)
        (before ++ line.take chunk) (line.drop chunk) (fun hin => hline (List.mem_of_mem_drop hin)) rfl
      rw [htake,dif_neg hne,hnone]
      dsimp only
      have hend : (before ++ line.take chunk).length + ((line.drop chunk).length + 1) =
          before.length + (n + 1) := by
        rw [List.length_append,hlen,List.length_drop]
        omega
      rw [← List.length_append,hcontent,hrest,List.take_append_drop,hend]

theorem lineAt_end (chunk : Nat) (content : Bytes) :
    lineAt chunk content content.length = ([],content.length,false) := by
  rw [lineAt]
  have hnone : Record.readAt content content.length chunk = [] := by
    rw [Record.readAt,List.drop_length,List.take_nil]
  rw [dif_pos hnone]

end lines

section files

structure Writes (s : Session) (name : Name) (binary : Bool) (content : Bytes) : Prop where
  file : s.files (datasetName name) = some ⟨.output,binary,content.length⟩
  disk : s.disk (datasetName name) = some content

structure Reads (s : Session) (name : Name) (binary : Bool) (content : Bytes) (pos : Nat) : Prop where
  file : s.files (datasetName name) = some ⟨.input,binary,pos⟩
  disk : s.disk (datasetName name) = some content

theorem opened_file {f : OpenDataset} (hfile : s.files (datasetName name) = some f) :
    opened s name = .ok f := by
  rw [opened,hfile]

theorem transfer_end (hs : Writes s name binary content)
    (hb : transferred memos ⟨.output,binary,content.length⟩ d none false = .ok b) :
    ∃ s',transfer memos s d name none false = .ok s' ∧ s'.subrc = 0 ∧
      Writes s' name binary (content ++ b) := by
  have hcall : transfer memos s d name none false =
      .ok ⟨Function.update s.disk (datasetName name) ((s.disk (datasetName name)).map fun old =>
          Record.writeAt 0 old content.length b),
        Function.update s.files (datasetName name) (some ⟨.output,binary,content.length + b.length⟩),0⟩ := by
    simp only [transfer,opened_file hs.file,bind,Except.bind,hb,reduceCtorEq,↓reduceIte]
  refine ⟨_,hcall,rfl,⟨?_,?_⟩⟩
  · exact (Function.update_self ..).trans (by rw [List.length_append])
  · refine (Function.update_self ..).trans ?_
    rw [hs.disk]
    exact congrArg some (Record.writeAt_end content b)

theorem transferAll_images (image : Data → Bytes) (hs : Writes s name binary content)
    (himage : ∀ d ∈ ds,∀ pos,transferred memos ⟨.output,binary,pos⟩ d none false = .ok (image d)) :
    ∃ s',transferAll memos s name ds =
        .ok ((Record.advances content.length (ds.map fun d => (image d).length)).map (fun p => (0,p)),s') ∧
      Writes s' name binary (content ++ ds.flatMap image) := by
  induction ds generalizing s content with
  | nil => exact ⟨s,rfl,by rwa [List.flatMap_nil,List.append_nil]⟩
  | cons d ds ih =>
    obtain ⟨s₁,htransfer,hsubrc,hwrites⟩ := transfer_end hs (himage d (List.mem_cons_self ..) _)
    obtain ⟨s₂,hrest,hdone⟩ := ih hwrites fun e he => himage e (List.mem_cons_of_mem _ he)
    refine ⟨s₂,?_,?_⟩
    · rw [transferAll_cons memos ds htransfer (opened_file hwrites.file),hrest,hsubrc]
      change Except.ok ((0,(content ++ image d).length) :: _,s₂) = _
      rw [List.length_append]
      rfl
    · rwa [List.flatMap_cons,← List.append_assoc]

def Takes (memos : Memos) (binary : Bool) (target : Data) (b : Bytes) (result : Data) (actual : Int32) :
    Prop :=
  ∀ s name before rest,Reads s name binary (before ++ (b ++ rest)) before.length →
    ∃ s',readDataset memos s name target none = .ok ⟨result,actual,s'⟩ ∧ s'.subrc = 0 ∧
      Reads s' name binary (before ++ (b ++ rest)) (before.length + b.length)

structure Row where
  target : Data
  bytes : Bytes
  result : Data
  actual : Int32

theorem readAll_takes (before : Bytes) {rows : List Row} (more : List Data)
    (hrows : ∀ row ∈ rows,Takes memos binary row.target row.bytes row.result row.actual)
    (hs : Reads s name binary (before ++ (rows.flatMap Row.bytes ++ rest)) before.length) :
    ∃ read s',(read.map fun r : Reading × Nat => (r.1.target,r.1.actual,r.1.session.subrc,r.2)) =
        List.zipWith (fun row p => (row.result,row.actual,0,p)) rows
          (Record.advances before.length (rows.map fun row => row.bytes.length)) ∧
      readAll memos s name (rows.map Row.target ++ more) =
        (readAll memos s' name more).map (fun x => (read ++ x.1,x.2)) ∧
      Reads s' name binary (before ++ (rows.flatMap Row.bytes ++ rest))
        (before.length + (rows.flatMap Row.bytes).length) := by
  induction rows generalizing s before with
  | nil =>
    refine ⟨[],s,rfl,?_,hs⟩
    rw [List.map_nil,List.nil_append]
    cases readAll memos s name more with
    | error fault => rfl
    | ok x => rfl
  | cons row rows ih =>
    rw [List.flatMap_cons,List.append_assoc] at hs
    obtain ⟨s₁,hread,hsubrc,hreads⟩ := hrows row (List.mem_cons_self ..) s name before _ hs
    have hnext : Reads s₁ name binary ((before ++ row.bytes) ++ (rows.flatMap Row.bytes ++ rest))
        (before ++ row.bytes).length := by
      rw [List.append_assoc,List.length_append]
      exact hreads
    obtain ⟨read,s₂,hmap,hall,hdone⟩ :=
      ih (before ++ row.bytes) (fun r hr => hrows r (List.mem_cons_of_mem _ hr)) hnext
    refine ⟨(⟨row.result,row.actual,s₁⟩,before.length + row.bytes.length) :: read,s₂,?_,?_,?_⟩
    · rw [List.map_cons,hmap,List.map_cons,Record.advances,List.zipWith_cons_cons,hsubrc,List.length_append]
    · rw [List.map_cons,List.cons_append,readAll_cons memos _ hread (opened_file hreads.file),hall]
      cases readAll memos s₂ name more with
      | error fault => rfl
      | ok x => rfl
    · rw [List.flatMap_cons,List.append_assoc row.bytes,← List.append_assoc before,List.length_append,
        ← Nat.add_assoc]
      rwa [List.length_append] at hdone

theorem open_output (binary : Bool) (hfree : s.files (datasetName name) = none) :
    ∃ s',openDataset s name {mode := .output,binary := binary} = .ok s' ∧ Writes s' name binary [] := by
  have hcall : openDataset s name {mode := .output,binary := binary} =
      .ok ⟨Function.update s.disk (datasetName name) (some []),
        Function.update s.files (datasetName name) (some ⟨.output,binary,0⟩),0⟩ := by
    rw [openDataset]
    dsimp only
    rw [hfree,if_neg nofun]
    rfl
  exact ⟨_,hcall,⟨Function.update_self ..,Function.update_self ..⟩⟩

theorem hostOpen_input {disk : Name → Option Bytes} (hdisk : disk name = some content) :
    hostOpen disk name .input = some disk := by
  unfold hostOpen
  rw [hdisk]

theorem open_input (hs : Writes s name binary content) :
    ∃ s',openDataset (closeDataset s name) name {mode := .input,binary := binary} = .ok s' ∧
      Reads s' name binary content 0 := by
  have hclosed : (closeDataset s name).files (datasetName name) = none := Function.update_self ..
  have hdisk : (closeDataset s name).disk (datasetName name) = some content := hs.disk
  have hcall : openDataset (closeDataset s name) name {mode := .input,binary := binary} =
      .ok ⟨(closeDataset s name).disk,Function.update (closeDataset s name).files (datasetName name)
        (some ⟨.input,binary,0⟩),0⟩ := by
    rw [openDataset]
    dsimp only
    rw [hclosed,if_neg nofun,hostOpen_input hdisk]
    rfl
  exact ⟨_,hcall,⟨Function.update_self ..,hdisk⟩⟩

end files

end OpenSteamgate.Files
