import OpenSteamgate.Files.RoundTrip

namespace OpenSteamgate.Files

open Text Wtf8

variable {memos : Memos} {d : Data} {ps : List Nat}

def image (memos : Memos) (d : Data) : Bytes :=
  if d.kind = .x then d.value
  else ((utf16Units memos (charsOf memos d true)).toOption.map utf16le).getD []

theorem held_len (hheld : Held d) : 1 ≤ d.len ∧ d.len ≤ maxRawLength := by
  obtain ⟨kind,len,value⟩ := d
  cases kind with
  | c => exact ⟨hheld.1,hheld.2.1.trans maxFieldLength_le⟩
  | n => exact ⟨hheld.1,hheld.2.1.trans maxFieldLength_le⟩
  | d =>
    obtain rfl : len = 8 := hheld.1
    exact ⟨by change 1 ≤ 8; decide,by change 8 ≤ 524287; decide⟩
  | t =>
    obtain rfl : len = 6 := hheld.1
    exact ⟨by change 1 ≤ 6; decide,by change 6 ≤ 524287; decide⟩
  | x => exact ⟨hheld.1,hheld.2.1⟩
  | g | y | other => exact hheld.elim

theorem width_pos (hheld : Held d) : 1 ≤ width d := by
  have hlen := (held_len hheld).1
  rw [width]
  split
  · exact hlen
  · omega

structure Written (memos : Memos) (d : Data) (ps : List Nat) : Prop extends Spelled memos d ps where
  charLike : isCharLike d.kind = true
  fixed : d.kind = .c ∨ d.kind = .n ∨ d.kind = .d ∨ d.kind = .t

theorem held_written (hheld : Held d) (hx : d.kind ≠ .x) : ∃ ps,Written memos d ps := by
  cases hkind : d.kind with
  | c =>
    obtain ⟨ps,hps⟩ := spelled_c hkind hheld
    exact ⟨ps,hps,by rw [hkind]; rfl,.inl hkind⟩
  | n =>
    obtain ⟨ps,hps⟩ := spelled_n hkind hheld
    exact ⟨ps,hps,by rw [hkind]; rfl,.inr (.inl hkind)⟩
  | d =>
    obtain ⟨ps,hps⟩ := spelled_d hkind hheld
    exact ⟨ps,hps,by rw [hkind]; rfl,.inr (.inr (.inl hkind))⟩
  | t =>
    obtain ⟨ps,hps⟩ := spelled_t hkind hheld
    exact ⟨ps,hps,by rw [hkind]; rfl,.inr (.inr (.inr hkind))⟩
  | x => exact absurd hkind hx
  | g | y | other =>
    obtain ⟨kind,len,value⟩ := d
    obtain rfl := hkind
    exact hheld.elim

namespace Written

theorem utf16 (hd : Written memos d ps) (hheld : Held d) :
    utf16Units memos (charsOf memos d true) = .ok (units ps) := by
  have hlen : (units ps).length < 2 ^ 31 :=
    (hd.short.trans (held_len hheld).2).trans_lt maxRawLength_lt
  rw [hd.chars,utf16Units_eq memos hd.canonical.points hlen]

theorem not_x (hd : Written memos d ps) : d.kind ≠ .x := by
  rcases hd.fixed with h | h | h | h <;> rw [h] <;> decide

theorem image_eq (hd : Written memos d ps) (hheld : Held d) :
    image memos d = utf16le (units ps) := by
  rw [image,if_neg (hd.not_x),hd.utf16 hheld]
  rfl

theorem image_length (hd : Written memos d ps) (hheld : Held d) :
    (image memos d).length = (units ps).length * 2 := by
  rw [hd.image_eq hheld,utf16le_length]

theorem image_width (hd : Written memos d ps) (hheld : Held d) :
    (image memos d).length = width d ↔ Full d := by
  rw [hd.image_length hheld,width,if_neg (hd.not_x),hd.full]
  exact Nat.mul_left_inj (by decide)

theorem transferred_image (hd : Written memos d ps) (hheld : Held d) (pos : Nat) :
    transferred memos ⟨.output,true,pos⟩ d none false = .ok (image memos d) := by
  have hbytes : isByteLike d.kind = false := by
    rcases hd.fixed with h | h | h | h <;> rw [h] <;> rfl
  rw [transferred,if_pos rfl,hbytes,if_neg Bool.false_ne_true,hd.charLike,if_pos rfl,hd.image_eq hheld]
  dsimp only
  rw [units16,hd.utf16 hheld]
  rfl

end Written

theorem image_x (hx : d.kind = .x) : image memos d = d.value := by
  rw [image,if_pos hx]

theorem image_width (hheld : Held d) : (image memos d).length = width d ↔ Full d := by
  by_cases hx : d.kind = .x
  · rw [image_x hx,width,if_pos hx,Full,hx]
  · obtain ⟨ps,hd⟩ := held_written hheld hx
    exact hd.image_width hheld

theorem transferred_image (hheld : Held d) (pos : Nat) :
    transferred memos ⟨.output,true,pos⟩ d none false = .ok (image memos d) := by
  by_cases hx : d.kind = .x
  · rw [image_x hx,transferred,if_pos rfl,hx]
    rfl
  · obtain ⟨ps,hd⟩ := held_written hheld hx
    exact hd.transferred_image hheld pos

def wanted (target : Data) (left : Nat) : Except Fault Nat :=
  match target.kind with
  | .x => .ok target.len
  | .y | .g => .ok left
  | .c | .n | .d | .t => .ok (target.len * 2)
  | .other => .error .notCompiled

def filled (memos : Memos) (target : Data) (b : Bytes) : Except Fault Data :=
  match target.kind with
  | .x => .ok {target with value := b ++ List.replicate (target.len - b.length) 0}
  | .y => .ok {target with value := b}
  | _ => moveString memos target (fromUtf16LE b)

theorem readDatasetBytes_split (memos : Memos) (s : Session) (f : OpenDataset) (name : Name)
    (target : Data) : readDatasetBytes memos s f name target none =
      (wanted target ((contentOf s name).length - f.pos) >>= fun want =>
        filled memos target (Record.readAt (contentOf s name) f.pos (min want want)) >>= fun result =>
          .ok ⟨result,Int32.ofNat (Record.readAt (contentOf s name) f.pos (min want want)).length,
            s.at' name f (f.pos + (Record.readAt (contentOf s name) f.pos (min want want)).length)
              (if result.kind = .y ∨ result.kind = .g then
                if Record.readAt (contentOf s name) f.pos (min want want) = [] then 4 else 0
              else if (Record.readAt (contentOf s name) f.pos (min want want)).length < min want want ∨
                min want want = 0 then 4 else 0)⟩) := by
  obtain ⟨kind,len,value⟩ := target
  cases kind <;> rfl

theorem readDatasetBytes_eq (s : Session) (f : OpenDataset) (name : Name) {target result : Data}
    {want : Nat} (hfixed : ¬(result.kind = .y ∨ result.kind = .g))
    (hwant : wanted target ((contentOf s name).length - f.pos) = .ok want) (hpos : 1 ≤ want)
    (hfilled : filled memos target (Record.readAt (contentOf s name) f.pos want) = .ok result)
    (hall : (Record.readAt (contentOf s name) f.pos want).length = want) :
    readDatasetBytes memos s f name target none =
      .ok ⟨result,Int32.ofNat want,s.at' name f (f.pos + want) 0⟩ := by
  have hfull : ¬(want < want ∨ want = 0) := by omega
  rw [readDatasetBytes_split,hwant]
  simp only [bind,Except.bind,Nat.min_self,hfilled,hall,if_neg hfixed,if_neg hfull]

theorem held_fixed (hheld : Held d) : ¬(d.kind = .y ∨ d.kind = .g) := by
  obtain ⟨kind,len,value⟩ := d
  rintro (h | h)
  · obtain rfl := h
    exact hheld.elim
  · obtain rfl := h
    exact hheld.elim

theorem wanted_width (hheld : Held d) (old : Bytes) (left : Nat) :
    wanted {d with value := old} left = .ok (width d) := by
  obtain ⟨kind,len,value⟩ := d
  cases kind with
  | c | n | d | t | x => rfl
  | g | y | other => exact hheld.elim

theorem filled_full (hheld : Held d) (hfull : Full d) (old : Bytes) :
    filled memos {d with value := old} (image memos d) = .ok d := by
  by_cases hx : d.kind = .x
  · have hlen : (image memos d).length = width d := (image_width hheld).mpr hfull
    rw [width,if_pos hx] at hlen
    obtain ⟨kind,len,value⟩ := d
    obtain rfl := hx
    change Except.ok (Data.mk .x len (image memos ⟨.x,len,value⟩ ++
      List.replicate (len - (image memos ⟨.x,len,value⟩).length) 0)) = _
    rw [hlen]
    dsimp only
    rw [Nat.sub_self,List.replicate_zero,List.append_nil,image_x rfl]
  · obtain ⟨ps,hd⟩ : ∃ ps,Written memos d ps := held_written hheld hx
    have hback := hd.back hfull old
    rw [hd.image_eq hheld]
    obtain ⟨kind,len,value⟩ := d
    rcases hd.fixed with h | h | h | h <;> obtain rfl := h <;>
      exact (congrArg (moveString memos _) (fromUtf16LE_utf16le hd.canonical)).trans hback

theorem takes_full (hheld : Held d) (hfull : Full d) (old : Bytes) :
    Takes memos true {d with value := old} (image memos d) d (Int32.ofNat (width d)) := by
  intro s name before rest hs
  have hlen : (image memos d).length = width d := (image_width hheld).mpr hfull
  have hcontent : contentOf s name = before ++ image memos d ++ rest := by
    rw [contentOf,hs.disk,List.append_assoc]
    rfl
  have hpart : Record.readAt (contentOf s name) before.length (width d) = image memos d := by
    rw [hcontent,← hlen]
    exact Record.readAt_part before rest
  have hread : readDataset memos s name {d with value := old} none = .ok ⟨d,Int32.ofNat (width d),
      s.at' name ⟨.input,true,before.length⟩ (before.length + width d) 0⟩ := by
    rw [readDataset,opened_file hs.file]
    change readDatasetBytes memos s ⟨.input,true,before.length⟩ name {d with value := old} none = _
    refine readDatasetBytes_eq s _ name (held_fixed hheld) (wanted_width hheld old _) (width_pos hheld)
      ?_ ?_
    · rw [hpart]
      exact filled_full hheld hfull old
    · rw [hpart,hlen]
  refine ⟨_,hread,rfl,⟨?_,hs.disk⟩⟩
  rw [hlen]
  exact Function.update_self ..

def ReadsBack (memos : Memos) (s : Session) (name : Name) (fields : List (Data × Bytes)) : Prop :=
  ∃ read,writeThenRead memos s name true (fields.map fun f => f.1)
      (fields.map fun f => {f.1 with value := f.2}) =
        .ok ((Record.advances 0 (fields.map fun f => width f.1)).map (fun p => (0,p)),read) ∧
    (read.map fun r => (r.1.target,r.1.session.subrc,r.2)) =
      List.zipWith (fun f p => (f.1,0,p)) fields (Record.advances 0 (fields.map fun f => width f.1))

section fields

variable {s : Session} {name : Name} {fields : List (Data × Bytes)}

theorem full_read (hfree : s.files (datasetName name) = none) (hheld : ∀ f ∈ fields,Held f.1)
    (hfull : ∀ f ∈ fields,Full f.1) : ReadsBack memos s name fields := by
  obtain ⟨read,s',hall,hmap,-⟩ := @written_read memos s name true (fields.map fun f => f.1)
    (fields.map fun f => ⟨{f.1 with value := f.2},image memos f.1,f.1,Int32.ofNat (width f.1)⟩)
    (image memos) hfree
    (fun d hd pos => by
      obtain ⟨f,hf,rfl⟩ := List.mem_map.mp hd
      exact transferred_image (hheld f hf) pos)
    (by rw [List.flatMap_map,List.flatMap_map])
    (fun row hrow => by
      obtain ⟨f,hf,rfl⟩ := List.mem_map.mp hrow
      exact takes_full (hheld f hf) (hfull f hf) f.2)
    []
  have hwidth : fields.map (fun f => (image memos f.1).length) = fields.map fun f => width f.1 :=
    List.map_congr_left fun f hf => (image_width (hheld f hf)).mpr (hfull f hf)
  refine ⟨read,?_,?_⟩
  · rw [List.map_map,List.append_nil,List.map_map] at hall
    refine hall.trans ?_
    change Except.ok ((Record.advances 0 (fields.map fun f => (image memos f.1).length)).map _,read ++ []) = _
    rw [hwidth,List.append_nil]
  · have hprojected := congrArg (List.map fun x => (x.1,x.2.2.1,x.2.2.2)) hmap
    rw [List.map_map,List.map_zipWith,List.zipWith_map_left,List.map_map] at hprojected
    refine hprojected.trans ?_
    rw [← hwidth]
    rfl

theorem read_full (hfree : s.files (datasetName name) = none) (hheld : ∀ f ∈ fields,Held f.1)
    (hread : ReadsBack memos s name fields) : ∀ f ∈ fields,Full f.1 := by
  obtain ⟨read,hall,-⟩ := hread
  obtain ⟨s₁,hopened,hwrites⟩ := open_output true hfree
  have himage : ∀ d ∈ fields.map fun f => f.1,∀ pos,
      transferred memos ⟨.output,true,pos⟩ d none false = .ok (image memos d) := by
    intro d hd pos
    obtain ⟨f,hf,rfl⟩ := List.mem_map.mp hd
    exact transferred_image (hheld f hf) pos
  obtain ⟨s₂,hwritten,hdone⟩ := transferAll_images (image memos) hwrites himage
  obtain ⟨s₃,hreopened,-⟩ := open_input hdone
  simp only [writeThenRead,hopened,hwritten,hreopened,bind,Except.bind] at hall
  have hpositions : (Record.advances 0 ((fields.map fun f => f.1).map fun d => (image memos d).length)).map
      (fun p => (0,p)) = (Record.advances 0 (fields.map fun f => width f.1)).map (fun p => (0,p)) := by
    split at hall
    · cases hall
    · exact (Prod.mk.inj (Except.ok.inj hall)).1
  have hinj : Function.Injective fun p : Nat => (0,p) := fun a b hab => (Prod.mk.inj hab).2
  have hlengths := Record.advances_inj (List.map_injective_iff.mpr hinj hpositions)
  rw [List.map_map] at hlengths
  intro f hf
  exact (image_width (hheld f hf)).mp (List.map_inj_left.mp hlengths f hf)

theorem unset_shifts : ∃ (s : Session) (name : Name) (fields : List (Data × Bytes)),
    s.files (datasetName name) = none ∧ (∀ f ∈ fields,Held f.1) ∧
      ∀ memos,¬ReadsBack memos s name fields := by
  have hnil : Canonical [] := ⟨List.forall_mem_nil _,List.isChain_nil⟩
  have hheld : ∀ f ∈ [(Data.mk .d 8 [],([] : Bytes)),(Data.mk .x 1 [7],[])],Held f.1 := by
    intro f hf
    rcases List.mem_cons.mp hf with rfl | hf
    · exact ⟨rfl,rfl,[],hnil,rfl,Nat.zero_le _⟩
    · obtain rfl := List.mem_singleton.mp hf
      exact ⟨Nat.le_refl 1,by change 1 ≤ 524287; decide,Nat.le_refl 1⟩
  refine ⟨{},['F'],_,rfl,hheld,fun memos hread => ?_⟩
  have hfull : count16 (bytes []) = (8 : Nat) := read_full rfl hheld hread _ (List.mem_cons_self ..)
  exact absurd ((count16_eq hnil).mp hfull) (by decide)

theorem transfer_read (memos : Memos) (s : Session) (name : Name)
    (hfree : s.files (datasetName name) = none) :
    (∀ lines : List (Bytes × Bytes),(∀ line ∈ lines,lineFeed ∉ line.1) → ∀ last : Bytes,
      ∃ written read,writeThenRead memos s name false (lines.map fun line => string line.1)
          ((lines.map fun line => string line.2) ++ [string last]) = .ok (written,read) ∧
        written = (Record.advances 0 (lines.map fun line => line.1.length + 1)).map (fun p => (0,p)) ∧
        (read.map fun r => (r.1.target,r.1.actual,r.1.session.subrc)) =
          (lines.map fun line => (string line.1,strlen memos line.1,0)) ++ [(string [],0,4)]) ∧
    ∀ fields : List (Data × Bytes),(∀ f ∈ fields,Held f.1) →
      (ReadsBack memos s name fields ↔ ∀ f ∈ fields,Full f.1) :=
  ⟨fun lines hlines last => lines_read memos hfree lines hlines last,
    fun _ hheld => ⟨read_full hfree hheld,full_read hfree hheld⟩⟩

theorem digits_spelled {v : Bytes} {n : Nat} (hv : v.all isDigit = true) (hn : v.length ≤ n) :
    ∃ ps,Canonical ps ∧ v = bytes ps ∧ (units ps).length ≤ n := by
  obtain ⟨hps,hbytes,hunits⟩ := digits_canonical hv
  exact ⟨_,hps,hbytes,hunits.le.trans hn⟩

theorem transfer_read_dated : ReadsBack ⟨fun v => strMemo v,fun _ => .fresh⟩ {} ['F']
    [(⟨.c,3,[55,56]⟩,[]),(⟨.n,2,[48,55]⟩,[1]),(⟨.d,8,[50,48,50,52,48,49,48,49]⟩,[]),
      (⟨.t,6,[49,50,48,48,48,48]⟩,[]),(⟨.x,2,[7,8]⟩,[9])] := by
  have hfull {v : Bytes} (hv : v.all isDigit = true) : count16 v = v.length := by
    obtain ⟨hps,hbytes,hunits⟩ := digits_canonical hv
    rw [hbytes]
    exact (count16_eq hps).mpr (hunits.trans (congrArg List.length hbytes))
  refine ((transfer_read ⟨fun v => strMemo v,fun _ => .fresh⟩ {} ['F'] rfl).2 _ ?_).mpr ?_
  · refine List.forall_mem_cons.mpr ⟨?_,List.forall_mem_cons.mpr ⟨?_,List.forall_mem_cons.mpr ⟨?_,
      List.forall_mem_cons.mpr ⟨?_,List.forall_mem_singleton.mpr ?_⟩⟩⟩⟩
    · exact ⟨by decide,by decide,by decide,digits_spelled (by decide) (by decide)⟩
    · exact ⟨by decide,by decide,by decide,by decide⟩
    · exact ⟨rfl,by decide,digits_spelled (by decide) (by decide)⟩
    · exact ⟨rfl,digits_spelled (by decide) (by decide)⟩
    · exact ⟨by decide,by decide,by decide⟩
  · refine List.forall_mem_cons.mpr ⟨trivial,List.forall_mem_cons.mpr ⟨rfl,List.forall_mem_cons.mpr ⟨?_,
      List.forall_mem_cons.mpr ⟨?_,List.forall_mem_singleton.mpr rfl⟩⟩⟩⟩
    · exact hfull (by decide)
    · exact hfull (by decide)

end fields

end OpenSteamgate.Files
