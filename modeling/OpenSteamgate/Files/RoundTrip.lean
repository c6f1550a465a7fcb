import OpenSteamgate.Files.Fields

namespace OpenSteamgate.Files

open Text Wtf8
open Dataset (Mode)

variable {memos : Memos} {s : Session} {name : Name} {d : Data} {b line : Bytes}

def string (v : Bytes) : Data := ⟨.g,0,v⟩

section text

theorem transferred_line (memos : Memos) (v : Bytes) (pos : Nat) :
    transferred memos ⟨.output,false,pos⟩ (string v) none false = .ok (v ++ [lineFeed]) := rfl

theorem takes_line (memos : Memos) (hline : lineFeed ∉ line) (old : Bytes) :
    Takes memos false (string old) (line ++ [lineFeed]) (string line) (strlen memos line) := by
  intro s name before rest hs
  have hcontent : contentOf s name = before ++ (line ++ lineFeed :: rest) := by
    rw [contentOf,hs.disk,List.append_assoc,List.singleton_append]
    rfl
  have hfound := lineAt_line (show 0 < datasetChunk by decide) before line rest hline
  have hread : readDataset memos s name (string old) none = .ok ⟨string line,strlen memos line,
      s.at' name ⟨.input,false,before.length⟩ (before.length + (line.length + 1)) 0⟩ := by
    rw [readDataset,opened_file hs.file]
    change readDatasetLine memos s ⟨.input,false,before.length⟩ name (string old) none = _
    rw [readDatasetLine,if_neg nofun,if_neg nofun,hcontent]
    dsimp only
    rw [hfound]
    dsimp only
    rw [if_neg nofun]
    rfl
  refine ⟨_,hread,rfl,⟨?_,hs.disk⟩⟩
  rw [List.length_append]
  exact Function.update_self ..

theorem read_end (memos : Memos) {content : Bytes} (old : Bytes) (hs : Reads s name false content content.length) :
    readDataset memos s name (string old) none = .ok ⟨string [],0,{s with subrc := 4}⟩ := by
  have hcontent : contentOf s name = content := by
    rw [contentOf,hs.disk]
    rfl
  rw [readDataset,opened_file hs.file]
  change readDatasetLine memos s ⟨.input,false,content.length⟩ name (string old) none = _
  rw [readDatasetLine,if_neg nofun,if_neg nofun,hcontent]
  dsimp only
  rw [lineAt_end]
  rfl

end text

theorem zipWith_advances {α β : Type} (f : α → β) (rows : List α) (g : α → Nat) (pos : Nat) :
    List.zipWith (fun row _ => f row) rows (Record.advances pos (rows.map g)) = rows.map f := by
  induction rows generalizing pos with
  | nil => rfl
  | cons row rows ih =>
    rw [List.map_cons,Record.advances,List.zipWith_cons_cons,ih,List.map_cons]

theorem written_read {binary : Bool} (sources : List Data) (rows : List Row) (image : Data → Bytes)
    (hfree : s.files (datasetName name) = none)
    (himage : ∀ d ∈ sources,∀ pos,transferred memos ⟨.output,binary,pos⟩ d none false = .ok (image d))
    (hbytes : rows.flatMap Row.bytes = sources.flatMap image)
    (hrows : ∀ row ∈ rows,Takes memos binary row.target row.bytes row.result row.actual)
    (more : List Data) :
    ∃ read s',writeThenRead memos s name binary sources (rows.map Row.target ++ more) =
        (readAll memos s' name more).map (fun x => ((Record.advances 0
          (sources.map fun d => (image d).length)).map (fun p => (0,p)),read ++ x.1)) ∧
      (read.map fun r : Reading × Nat => (r.1.target,r.1.actual,r.1.session.subrc,r.2)) =
        List.zipWith (fun row p => (row.result,row.actual,0,p)) rows
          (Record.advances 0 (rows.map fun row => row.bytes.length)) ∧
      Reads s' name binary (sources.flatMap image) (sources.flatMap image).length := by
  obtain ⟨s₁,hopened,hwrites⟩ := open_output binary hfree
  obtain ⟨s₂,hwritten,hdone⟩ := transferAll_images image hwrites himage
  obtain ⟨s₃,hreopened,hreads⟩ := open_input hdone
  rw [List.nil_append,← hbytes,← List.append_nil (rows.flatMap Row.bytes)] at hreads
  obtain ⟨read,s₄,hmap,hall,hend⟩ := readAll_takes [] more hrows hreads
  refine ⟨read,s₄,?_,hmap,?_⟩
  · simp only [writeThenRead,hopened,hwritten,hreopened,hall,bind,Except.bind]
    cases readAll memos s₄ name more with
    | error fault => rfl
    | ok x => rfl
  · rw [List.append_nil,List.nil_append,hbytes,List.length_nil,Nat.zero_add] at hend
    exact hend

theorem lines_read (memos : Memos) (hfree : s.files (datasetName name) = none) (lines : List (Bytes × Bytes))
    (hlines : ∀ line ∈ lines,lineFeed ∉ line.1) (last : Bytes) :
    ∃ written read,writeThenRead memos s name false (lines.map fun line => string line.1)
        ((lines.map fun line => string line.2) ++ [string last]) = .ok (written,read) ∧
      written = (Record.advances 0 (lines.map fun line => line.1.length + 1)).map (fun p => (0,p)) ∧
      (read.map fun r => (r.1.target,r.1.actual,r.1.session.subrc)) =
        (lines.map fun line => (string line.1,strlen memos line.1,0)) ++ [(string [],0,4)] := by
  obtain ⟨read,s',hall,hmap,hend⟩ := written_read (lines.map fun line => string line.1)
    (lines.map fun line => ⟨string line.2,line.1 ++ [lineFeed],string line.1,strlen memos line.1⟩)
    (fun d => d.value ++ [lineFeed]) hfree (fun d hd pos => by
      obtain ⟨line,-,rfl⟩ := List.mem_map.mp hd
      exact transferred_line memos line.1 pos)
    (by rw [List.flatMap_map,List.flatMap_map]; rfl)
    (fun row hrow => by
      obtain ⟨line,hline,rfl⟩ := List.mem_map.mp hrow
      exact takes_line memos (hlines line hline) line.2)
    [string last]
  have hlast : readAll memos s' name [string last] =
      .ok ([(⟨string [],0,{s' with subrc := 4}⟩,
        ((lines.map fun line => string line.1).flatMap fun d => d.value ++ [lineFeed]).length)],
        {s' with subrc := 4}) := by
    have hfile : opened {s' with subrc := 4} name = .ok _ := opened_file hend.file
    rw [readAll_cons memos [] (read_end memos last hend) hfile]
    rfl
  rw [List.map_map,List.map_map,hlast] at hall
  refine ⟨_,_,hall,?_,?_⟩
  · refine congrArg (fun ns => (Record.advances 0 ns).map _) (List.map_congr_left fun line _ => ?_)
    exact List.length_append
  · have hprojected := congrArg (List.map fun x => (x.1,x.2.1,x.2.2.1)) hmap
    rw [List.map_map,List.map_zipWith] at hprojected
    have hplain := hprojected.trans (zipWith_advances (fun row : Row => (row.result,row.actual,0)) _ _ 0)
    rw [List.map_map] at hplain
    rw [List.map_append]
    exact congrArg (· ++ [(string [],0,4)]) hplain

end OpenSteamgate.Files
