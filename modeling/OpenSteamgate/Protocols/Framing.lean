import OpenSteamgate.Protocols.Ni

namespace OpenSteamgate.Protocols.Ni

def Fits : List (List UInt8) → Nat → Prop
  | [],offset => offset = 0
  | s :: _,offset => offset < s.length

def NonEmpty (ss : List (List UInt8)) : Prop := ∀ s ∈ ss,s ≠ []

variable {ss : List (List UInt8)} {offset need max : Nat} {c a b : List UInt8}
  {d : NIFrameDecoder}

theorem fits_zero (h : NonEmpty ss) : Fits ss 0 := by
  cases ss with
  | nil => rfl
  | cons s ss => exact List.length_pos_iff.mpr (h s List.mem_cons_self)

theorem drop_flatten {s : List UInt8} (h : offset ≤ s.length) :
    (s :: ss).flatten.drop offset = s.drop offset ++ ss.flatten := by
  rw [List.flatten_cons,List.drop_append_of_le_length h]

theorem peek_cons (s : List UInt8) (rest : List Segment) (offset need : Nat) :
    peek (some s :: rest) offset (need + 1) =
      (peek rest 0 (need + 1 - min (need + 1) (s.length - offset))).map
        ((s.drop offset).take (min (need + 1) (s.length - offset)) ++ ·) := rfl

theorem copy_cons (s : List UInt8) (rest : List Segment) (offset need : Nat) :
    copy (some s :: rest) offset (need + 1) =
      if offset + min (need + 1) (s.length - offset) = s.length then
        (copy rest 0 (need + 1 - min (need + 1) (s.length - offset))).map fun r =>
          ((s.drop offset).take (min (need + 1) (s.length - offset)) ++ r.1,r.2.1 + 1,r.2.2)
      else some ((s.drop offset).take (min (need + 1) (s.length - offset)),0,
        offset + min (need + 1) (s.length - offset)) := rfl

theorem copy_spec (need : Nat) (hfits : Fits ss offset) (hne : NonEmpty ss)
    (h : need ≤ (ss.flatten.drop offset).length) :
    peek (ss.map some) offset need = some ((ss.flatten.drop offset).take need) ∧ ∃ passed offset',
      copy (ss.map some) offset need = some ((ss.flatten.drop offset).take need,passed,offset') ∧
      passed ≤ ss.length ∧ Fits (ss.drop passed) offset' ∧
      (ss.drop passed).flatten.drop offset' = (ss.flatten.drop offset).drop need := by
  induction ss generalizing offset need with
  | nil =>
    cases need with
    | zero => exact ⟨rfl,0,offset,rfl,le_refl _,hfits,rfl⟩
    | succ need => rw [List.flatten_nil,List.drop_nil] at h; exact nomatch h
  | cons s ss ih =>
    cases need with
    | zero => exact ⟨rfl,0,offset,rfl,Nat.zero_le _,hfits,rfl⟩
    | succ need =>
      have hlt : offset < s.length := hfits
      have hss : NonEmpty ss := fun t ht => hne t (List.mem_cons_of_mem _ ht)
      rw [drop_flatten hlt.le] at h ⊢
      rw [List.length_append,List.length_drop] at h
      rw [List.map_cons,peek_cons,copy_cons]
      rcases Nat.lt_or_ge (need + 1) (s.length - offset) with hlt' | hle
      · rw [Nat.min_eq_left hlt'.le,if_neg (by omega),Nat.sub_self,
          List.take_append_of_le_length (by rw [List.length_drop]; exact hlt'.le)]
        refine ⟨by rw [peek,Option.map_some,List.append_nil],0,offset + (need + 1),rfl,Nat.zero_le _,?_,?_⟩
        · change offset + (need + 1) < s.length
          omega
        · rw [List.drop_zero,drop_flatten (by omega),
            List.drop_append_of_le_length (by rw [List.length_drop]; exact hlt'.le),List.drop_drop]
      · obtain ⟨hpeek,passed,offset',hcopy,hpassed,hfits',hdrop⟩ := ih
          (need + 1 - (s.length - offset)) (fits_zero hss) hss (by rw [List.drop_zero]; omega)
        have hwhole : (s.drop offset).take (s.length - offset) = s.drop offset :=
          List.take_of_length_le (by rw [List.length_drop])
        have hall : (s.drop offset).take (need + 1) = s.drop offset :=
          List.take_of_length_le (by rw [List.length_drop]; exact hle)
        rw [Nat.min_eq_right hle,if_pos (by omega),hpeek,hcopy,Option.map_some,Option.map_some,
          List.drop_zero,List.take_append,List.length_drop,hwhole,hall]
        refine ⟨rfl,passed + 1,offset',rfl,Nat.succ_le_succ hpassed,hfits',?_⟩
        have hgone : (s.drop offset).drop (need + 1) = [] :=
          List.drop_eq_nil_of_le (by rw [List.length_drop]; exact hle)
        rw [List.drop_succ_cons,hdrop,List.drop_zero,List.drop_append,List.length_drop,hgone,List.nil_append]

structure Holds (d : NIFrameDecoder) (c : List UInt8) : Prop where
  segments : ∃ ss,d.segments.drop d.head = ss.map some ∧ NonEmpty ss ∧ Fits ss d.offset ∧
    c = ss.flatten.drop d.offset
  buffered : d.buffered = c.length
  head : d.head ≤ d.segments.length

theorem Holds.peekLength (h : Holds d c) (hlen : 4 ≤ c.length) :
    d.peekLength = some (numberBE (c.take 4)) := by
  obtain ⟨ss,hlive,hne,hfits,rfl⟩ := h.segments
  rw [NIFrameDecoder.peekLength,hlive,(copy_spec 4 hfits hne hlen).1]
  rfl

theorem Holds.compact (h : Holds d c) : Holds d.compact c ∧
    d.compact.failure = d.failure ∧ d.compact.maxPayloadLength = d.maxPayloadLength := by
  obtain ⟨ss,hlive,hne,hfits,hc⟩ := h.segments
  rw [NIFrameDecoder.compact]
  split
  · rename_i hhead
    refine ⟨⟨⟨ss,?_,hne,hfits,hc⟩,h.buffered,le_refl 0⟩,rfl,rfl⟩
    rw [hhead,List.drop_length] at hlive
    exact hlive
  · split
    · exact ⟨⟨⟨ss,hlive,hne,hfits,hc⟩,h.buffered,Nat.zero_le _⟩,rfl,rfl⟩
    · exact ⟨h,rfl,rfl⟩

theorem Holds.take (need : Nat) (h : Holds d c) (hlen : need ≤ c.length) : ∃ d',
    d.take need = some (c.take need,d') ∧ Holds d' (c.drop need) ∧ d'.failure = d.failure ∧
    d'.maxPayloadLength = d.maxPayloadLength := by
  obtain ⟨ss,hlive,hne,hfits,rfl⟩ := h.segments
  obtain ⟨passed,offset,hcopy,hpassed,hfits',hdrop⟩ := (copy_spec need hfits hne hlen).2
  have hlive_length : d.segments.length - d.head = ss.length := by
    rw [← List.length_drop,hlive,List.length_map]
  have hhead := h.head
  have hholds : Holds {d with
      segments := d.segments.take d.head ++ List.replicate passed none ++ d.segments.drop (d.head + passed),
      head := d.head + passed,offset := offset,
      buffered := d.buffered - need} ((ss.flatten.drop d.offset).drop need) := by
    have hlength : (d.segments.take d.head ++ List.replicate passed (none : Segment)).length =
        d.head + passed := by
      rw [List.length_append,List.length_take,List.length_replicate,Nat.min_eq_left hhead]
    refine ⟨⟨ss.drop passed,?_,fun s hs => hne s (List.mem_of_mem_drop hs),hfits',hdrop.symm⟩,
      ?_,?_⟩
    · change List.drop (d.head + passed) (_ ++ _) = _
      rw [List.drop_left' hlength,← List.drop_drop,hlive,List.map_drop]
    · change d.buffered - need = _
      rw [h.buffered,List.length_drop (i := need)]
    · change d.head + passed ≤ List.length (_ ++ _)
      rw [List.length_append,hlength]
      omega
  rw [NIFrameDecoder.take,hlive,hcopy]
  exact ⟨_,rfl,hholds.compact⟩

def unframe (max : Nat) (c : List UInt8) : List (List UInt8) × List UInt8 × Bool :=
  if 4 ≤ c.length then
    if max < numberBE (c.take 4) then ([],c,true)
    else if c.length < 4 + numberBE (c.take 4) then ([],c,false)
    else
      let rest := unframe max (c.drop (4 + numberBE (c.take 4)))
      ((c.drop 4).take (numberBE (c.take 4)) :: rest.1,rest.2)
  else ([],c,false)
termination_by c.length
decreasing_by
  rw [List.length_drop]
  omega

theorem unframe_short (h : c.length < 4) : unframe max c = ([],c,false) := by
  rw [unframe,if_neg (by omega)]

theorem unframe_oversized (h : 4 ≤ c.length) (hlen : max < numberBE (c.take 4)) :
    unframe max c = ([],c,true) := by
  rw [unframe,if_pos h,if_pos hlen]

theorem unframe_cut (h : 4 ≤ c.length) (hlen : ¬max < numberBE (c.take 4))
    (hshort : c.length < 4 + numberBE (c.take 4)) : unframe max c = ([],c,false) := by
  rw [unframe,if_pos h,if_neg hlen,if_pos hshort]

theorem unframe_frame (h : 4 ≤ c.length) (hlen : ¬max < numberBE (c.take 4))
    (hshort : ¬c.length < 4 + numberBE (c.take 4)) : unframe max c = ((c.drop 4).take (numberBE (c.take 4)) ::
          (unframe max (c.drop (4 + numberBE (c.take 4)))).1,
        (unframe max (c.drop (4 + numberBE (c.take 4)))).2) := by
  rw [unframe,if_pos h,if_neg hlen,if_neg hshort]

theorem unframe_rest (c : List UInt8) : unframe max (unframe max c).2.1 =
    ([],(unframe max c).2.1,(unframe max c).2.2) := by
  induction c using unframe.induct max with
  | case1 c h hlen => rw [unframe_oversized h hlen,unframe_oversized h hlen]
  | case2 c h hlen hshort =>
    rw [unframe_cut h hlen hshort,unframe_cut h hlen hshort]
  | case3 c h hlen hshort ih => rw [unframe_frame h hlen hshort,ih]
  | case4 c h =>
    have hshort : unframe max c = ([],c,false) := unframe_short (by omega)
    rw [hshort,hshort]

theorem unframe_append (a b : List UInt8) : unframe max (a ++ b) =
    if (unframe max a).2.2 then ((unframe max a).1,(unframe max a).2.1 ++ b,true)
    else ((unframe max a).1 ++ (unframe max ((unframe max a).2.1 ++ b)).1,
      (unframe max ((unframe max a).2.1 ++ b)).2) := by
  induction a using unframe.induct max with
  | case1 a h hlen =>
    have htake : (a ++ b).take 4 = a.take 4 := List.take_append_of_le_length h
    rw [unframe_oversized h hlen,if_pos rfl]
    exact unframe_oversized (by rw [List.length_append]; omega) (by rw [htake]; exact hlen)
  | case2 a h hlen hshort =>
    rw [unframe_cut h hlen hshort,if_neg nofun,List.nil_append]
  | case3 a h hlen hshort ih =>
    have htake : (a ++ b).take 4 = a.take 4 := List.take_append_of_le_length h
    have hbody : ((a ++ b).drop 4).take (numberBE (a.take 4)) =
        (a.drop 4).take (numberBE (a.take 4)) := by
      rw [List.drop_append_of_le_length h,List.take_append_of_le_length]
      rw [List.length_drop]
      omega
    have hdrop : (a ++ b).drop (4 + numberBE (a.take 4)) =
        a.drop (4 + numberBE (a.take 4)) ++ b := List.drop_append_of_le_length (by omega)
    have hframe := unframe_frame (c := a ++ b) (by rw [List.length_append]; omega)
      (by rw [htake]; exact hlen) (by rw [htake,List.length_append]; omega)
    rw [htake,hbody,hdrop,ih] at hframe
    rw [hframe,unframe_frame h hlen hshort]
    split
    · rfl
    · rfl
  | case4 a h =>
    have hshort : unframe max a = ([],a,false) := unframe_short (by omega)
    rw [hshort,if_neg nofun,List.nil_append]

theorem Holds.next (need : Nat) (h : Holds d c) (hlen : 4 + need ≤ c.length) : ∃ d1 d2,
    d.take 4 = some (c.take 4,d1) ∧ d1.take need = some ((c.drop 4).take need,d2) ∧
    Holds d2 (c.drop (4 + need)) ∧ d2.failure = d.failure ∧
    d2.maxPayloadLength = d.maxPayloadLength := by
  obtain ⟨d1,htake1,hholds1,hfailure1,hmax1⟩ := h.take 4 (by omega)
  obtain ⟨d2,htake2,hholds2,hfailure2,hmax2⟩ :=
    hholds1.take need (by rw [List.length_drop]; omega)
  rw [List.drop_drop] at hholds2
  exact ⟨d1,d2,htake1,htake2,hholds2,hfailure2.trans hfailure1,hmax2.trans hmax1⟩

structure Drained (d d' : NIFrameDecoder) (c : List UInt8) (frames : List (List UInt8))
    (r : Except NIError (List (List UInt8))) : Prop where
  holds : Holds d' (unframe d.maxPayloadLength c).2.1
  limit : d'.maxPayloadLength = d.maxPayloadLength
  failed : (unframe d.maxPayloadLength c).2.2 = true →
    r = .error .payloadTooLarge ∧ d'.failure = some .payloadTooLarge
  delivered : (unframe d.maxPayloadLength c).2.2 = false →
    r = .ok (frames ++ (unframe d.maxPayloadLength c).1) ∧ d'.failure = none

theorem drain_short {n : Nat} {frames : List (List UInt8)} (h : d.buffered < 4) :
    d.drain n frames = some (.ok frames,d) := by
  cases n with
  | zero => rfl
  | succ n => rw [NIFrameDecoder.drain,if_neg (by omega)]

theorem drain_long {n len : Nat} {frames : List (List UInt8)} (h : 4 ≤ d.buffered)
    (hlen : d.peekLength = some len) : NIFrameDecoder.drain (n + 1) frames d =
      if d.maxPayloadLength < len then
        some (.error .payloadTooLarge,{d with failure := some .payloadTooLarge})
      else if d.buffered < 4 + len then some (.ok frames,d)
      else (d.take 4).bind fun r => (r.2.take len).bind fun r' =>
        NIFrameDecoder.drain n (frames ++ [r'.1]) r'.2 := by
  rw [NIFrameDecoder.drain,if_pos h,hlen]
  rfl

theorem drain_spec {n : Nat} (frames : List (List UInt8)) (h : Holds d c)
    (hfailure : d.failure = none) (hn : c.length ≤ n) :
    ∃ r d',d.drain n frames = some (r,d') ∧ Drained d d' c frames r := by
  induction n generalizing d c frames with
  | zero =>
    have hunframe : unframe d.maxPayloadLength c = ([],c,false) := unframe_short (by omega)
    refine ⟨_,d,drain_short (by rw [h.buffered]; omega),?_⟩
    exact ⟨by rw [hunframe]; exact h,rfl,by rw [hunframe]; exact nofun,
      fun _ => ⟨by rw [hunframe,List.append_nil],hfailure⟩⟩
  | succ n ih =>
    have hbuffered := h.buffered
    rcases Nat.lt_or_ge c.length 4 with hshort | hlong
    · have hunframe : unframe d.maxPayloadLength c = ([],c,false) := unframe_short hshort
      refine ⟨_,d,drain_short (by omega),?_⟩
      exact ⟨by rw [hunframe]; exact h,rfl,by rw [hunframe]; exact nofun,
        fun _ => ⟨by rw [hunframe,List.append_nil],hfailure⟩⟩
    · rw [drain_long (by omega) (h.peekLength hlong)]
      by_cases hlarge : d.maxPayloadLength < numberBE (c.take 4)
      · have hunframe := unframe_oversized hlong hlarge
        rw [if_pos hlarge]
        refine ⟨_,_,rfl,?_⟩
        exact ⟨by rw [hunframe]; exact ⟨h.segments,hbuffered,h.head⟩,rfl,fun _ => ⟨rfl,rfl⟩,
          by rw [hunframe]; exact nofun⟩
      · rw [if_neg hlarge]
        by_cases hpart : c.length < 4 + numberBE (c.take 4)
        · have hunframe := unframe_cut hlong hlarge hpart
          rw [hbuffered,if_pos hpart]
          refine ⟨_,d,rfl,?_⟩
          exact ⟨by rw [hunframe]; exact h,rfl,by rw [hunframe]; exact nofun,
            fun _ => ⟨by rw [hunframe,List.append_nil],hfailure⟩⟩
        · obtain ⟨d1,d2,htake1,htake2,hholds,hfailure2,hmax⟩ :=
            h.next (numberBE (c.take 4)) (by omega)
          have hunframe := unframe_frame hlong hlarge hpart
          obtain ⟨r,d',hdrain,hdrained⟩ := ih _ hholds (hfailure2.trans hfailure)
            (by rw [List.length_drop]; omega)
          rw [hbuffered,if_neg hpart,htake1,Option.bind_some,htake2,Option.bind_some]
          refine ⟨r,d',hdrain,?_,hdrained.limit.trans hmax,?_,?_⟩
          · rw [hunframe,← hmax]
            exact hdrained.holds
          · rw [hunframe,← hmax]
            exact hdrained.failed
          · rw [hunframe,← hmax]
            intro hok
            obtain ⟨hr,hnone⟩ := hdrained.delivered hok
            rw [List.append_assoc] at hr
            exact ⟨hr,hnone⟩

theorem Holds.append (h : Holds d c) {chunk : List UInt8} (hchunk : 0 < chunk.length) :
    Holds {d with segments := d.segments ++ [some chunk],buffered := d.buffered + chunk.length}
      (c ++ chunk) := by
  obtain ⟨ss,hlive,hne,hfits,rfl⟩ := h.segments
  refine ⟨⟨ss ++ [chunk],?_,?_,?_,?_⟩,?_,?_⟩
  · change List.drop d.head (_ ++ _) = _
    rw [List.drop_append_of_le_length h.head,hlive,List.map_append]
    rfl
  · exact List.forall_mem_append.mpr
      ⟨hne,List.forall_mem_singleton.mpr (List.length_pos_iff.mp hchunk)⟩
  · cases ss with
    | nil =>
      have hzero : d.offset = 0 := hfits
      change d.offset < chunk.length
      omega
    | cons s ss => exact hfits
  · have hle : d.offset ≤ ss.flatten.length := by
      cases ss with
      | nil => exact Nat.le_of_eq hfits
      | cons s ss =>
        have hlt : d.offset < s.length := hfits
        rw [List.flatten_cons,List.length_append]
        omega
    change _ = List.drop d.offset _
    rw [List.flatten_append,List.drop_append_of_le_length hle,List.flatten_singleton]
  · change d.buffered + chunk.length = _
    rw [h.buffered,List.length_append]
  · change d.head ≤ List.length (_ ++ _)
    rw [List.length_append]
    exact h.head.trans (Nat.le_add_right _ _)

theorem push_spec (h : Holds d c) (hfailure : d.failure = none) (chunk : List UInt8) :
    ∃ r d',d.push chunk = some (r,d') ∧ Drained d d' (c ++ chunk) [] r := by
  have hpush : d.push chunk = NIFrameDecoder.drain
      (if 0 < chunk.length then
        {d with segments := d.segments ++ [some chunk],buffered := d.buffered + chunk.length}
      else d).buffered []
      (if 0 < chunk.length then
        {d with segments := d.segments ++ [some chunk],buffered := d.buffered + chunk.length}
      else d) := by
    rw [NIFrameDecoder.push,hfailure]
  rw [hpush]
  split
  · rename_i hchunk
    have hholds := h.append hchunk
    obtain ⟨r,d',hdrain,hdrained⟩ := drain_spec [] hholds hfailure hholds.buffered.ge
    exact ⟨r,d',hdrain,hdrained.holds,hdrained.limit,hdrained.failed,hdrained.delivered⟩
  · rename_i hchunk
    rw [List.length_eq_zero_iff.mp (by omega : chunk.length = 0),List.append_nil]
    exact drain_spec [] h hfailure h.buffered.ge

structure Delivered (d : NIFrameDecoder) (c : List UInt8) (chunks : List (List UInt8))
    (D : Delivery) : Prop where
  whole : (unframe d.maxPayloadLength (c ++ chunks.flatten)).2.2 = false →
    D.failure = none ∧ D.frames = (unframe d.maxPayloadLength (c ++ chunks.flatten)).1 ∧
    Holds D.decoder (unframe d.maxPayloadLength (c ++ chunks.flatten)).2.1 ∧
    D.decoder.failure = none
  failed : (unframe d.maxPayloadLength (c ++ chunks.flatten)).2.2 = true →
    D.failure = some .payloadTooLarge ∧ D.decoder.failure = some .payloadTooLarge ∧
    ∃ before chunk after,chunks = before ++ chunk :: after ∧
      (unframe d.maxPayloadLength (c ++ before.flatten)).2.2 = false ∧
      (unframe d.maxPayloadLength (c ++ (before ++ [chunk]).flatten)).2.2 = true ∧
      D.frames = (unframe d.maxPayloadLength (c ++ before.flatten)).1

theorem deliver_error {e : NIError} {d' : NIFrameDecoder} {chunk : List UInt8}
    (chunks : List (List UInt8)) (h : d.push chunk = some (.error e,d')) :
    deliver d (chunk :: chunks) = some ⟨[],some e,d'⟩ := by
  rw [deliver,h]
  rfl

theorem deliver_ok {frames : List (List UInt8)} {d' : NIFrameDecoder} {chunk : List UInt8}
    (chunks : List (List UInt8)) (h : d.push chunk = some (.ok frames,d')) :
    deliver d (chunk :: chunks) = (deliver d' chunks).map fun rest =>
      {rest with frames := frames ++ rest.frames} := by
  rw [deliver,h]
  change ((deliver d' chunks).bind fun rest => some _) = _
  cases deliver d' chunks with
  | none => rfl
  | some rest => rfl

theorem deliver_spec (chunks : List (List UInt8)) (h : Holds d c) (hfailure : d.failure = none)
    (hrest : unframe d.maxPayloadLength c = ([],c,false)) :
    ∃ D,deliver d chunks = some D ∧ Delivered d c chunks D := by
  induction chunks generalizing d c with
  | nil =>
    refine ⟨_,rfl,?_,?_⟩
    · rw [List.flatten_nil,List.append_nil,hrest]
      exact fun _ => ⟨rfl,rfl,h,hfailure⟩
    · rw [List.flatten_nil,List.append_nil,hrest]
      exact nofun
  | cons chunk chunks ih =>
    obtain ⟨r,d',hpush,hdrained⟩ := push_spec h hfailure chunk
    cases hlarge : (unframe d.maxPayloadLength (c ++ chunk)).2.2 with
    | true =>
      obtain ⟨rfl,hsome⟩ := hdrained.failed hlarge
      have happend : unframe d.maxPayloadLength (c ++ chunk ++ chunks.flatten) = _ :=
        unframe_append (c ++ chunk) chunks.flatten
      rw [List.append_assoc,if_pos hlarge] at happend
      refine ⟨_,deliver_error chunks hpush,?_,fun _ => ⟨rfl,hsome,[],chunk,chunks,rfl,?_,?_,?_⟩⟩
      · rw [List.flatten_cons,happend]
        exact nofun
      · rw [List.flatten_nil,List.append_nil,hrest]
      · rw [List.nil_append,List.flatten_singleton,hlarge]
      · rw [List.flatten_nil,List.append_nil,hrest]
    | false =>
      obtain ⟨rfl,hnone⟩ := hdrained.delivered hlarge
      have hstep : ∀ more,unframe d.maxPayloadLength (c ++ (chunk ++ more)) =
          ((unframe d.maxPayloadLength (c ++ chunk)).1 ++
            (unframe d.maxPayloadLength ((unframe d.maxPayloadLength (c ++ chunk)).2.1 ++ more)).1,
          (unframe d.maxPayloadLength
            ((unframe d.maxPayloadLength (c ++ chunk)).2.1 ++ more)).2) := fun more => by
        rw [← List.append_assoc,unframe_append (c ++ chunk) more,if_neg (by rw [hlarge]; exact nofun)]
      have hidle : unframe d.maxPayloadLength _ = _ := unframe_rest (c ++ chunk)
      rw [hlarge] at hidle
      obtain ⟨D,hdeliver,hD⟩ := ih hdrained.holds hnone (by rw [hdrained.limit]; exact hidle)
      have hwhole := hD.whole
      have hfailed := hD.failed
      rw [hdrained.limit] at hwhole hfailed
      refine ⟨_,by rw [deliver_ok chunks hpush,hdeliver,Option.map_some],?_,?_⟩
      · rw [List.flatten_cons,hstep]
        intro hno
        obtain ⟨hD1,hD2,hD3,hD4⟩ := hwhole hno
        refine ⟨hD1,?_,hD3,hD4⟩
        change [] ++ _ ++ D.frames = _
        rw [hD2,List.nil_append]
      · rw [List.flatten_cons,hstep]
        intro hyes
        obtain ⟨hD1,hD2,before,middle,after,rfl,hbefore,hmiddle,hframes⟩ := hfailed hyes
        refine ⟨hD1,hD2,chunk :: before,middle,after,rfl,?_,?_,?_⟩
        · rw [List.flatten_cons,hstep]
          exact hbefore
        · rw [List.cons_append,List.flatten_cons,hstep]
          exact hmiddle
        · rw [List.flatten_cons,hstep]
          change [] ++ _ ++ D.frames = _
          rw [hframes,List.nil_append]

theorem unframe_length (c : List UInt8) : (unframe max c).2.1.length +
    ((unframe max c).1.map fun frame => 4 + frame.length).sum = c.length := by
  induction c using unframe.induct max with
  | case1 c h hlen =>
    rw [unframe_oversized h hlen]
    rfl
  | case2 c h hlen hshort =>
    rw [unframe_cut h hlen hshort]
    rfl
  | case3 c h hlen hshort ih =>
    rw [unframe_frame h hlen hshort,List.map_cons,List.sum_cons,List.length_take,List.length_drop]
    change (unframe max (c.drop (4 + numberBE (c.take 4)))).2.1.length + _ = c.length
    rw [List.length_drop] at ih
    omega
  | case4 c h =>
    rw [unframe_short (by omega)]
    rfl

theorem unframe_payload {payload : List UInt8} (hmax : max ≤ 0xffffffff)
    (h : payload.length ≤ max) (c : List UInt8) :
    unframe max (bigEndian 4 payload.length ++ payload ++ c) =
      (payload :: (unframe max c).1,(unframe max c).2) := by
  have hfour : (bigEndian 4 payload.length).length = 4 := BigEndian.length_bigEndian 4 _
  have htake : (bigEndian 4 payload.length ++ payload ++ c).take 4 =
      bigEndian 4 payload.length := by
    rw [List.append_assoc,List.take_left' hfour]
  have hdrop : (bigEndian 4 payload.length ++ payload ++ c).drop 4 = payload ++ c := by
    rw [List.append_assoc,List.drop_left' hfour]
  have hnumber : numberBE (bigEndian 4 payload.length) = payload.length :=
    BigEndian.numberBE_bigEndian (by omega)
  have hlength : (bigEndian 4 payload.length ++ payload ++ c).length =
      4 + payload.length + c.length := by
    rw [List.length_append,List.length_append,hfour]
  have hframe : unframe max (bigEndian 4 payload.length ++ payload ++ c) = _ :=
    unframe_frame (by omega) (by rw [htake,hnumber]; omega) (by rw [htake,hnumber]; omega)
  rw [hframe,htake,hnumber,← List.drop_drop,hdrop,List.take_left' rfl,List.drop_left' rfl]

theorem encode_ok {payload image : List UInt8} (h : encodeNIFrame payload = .ok image) :
    image = bigEndian 4 payload.length ++ payload := by
  rw [encodeNIFrame] at h
  split at h
  · exact nomatch h
  · exact (Except.ok.inj h).symm

theorem unframe_images {payloads images : List (List UInt8)} (hmax : max ≤ 0xffffffff)
    (h : ∀ p ∈ payloads,p.length ≤ max)
    (himages : List.Forall₂ (fun p image => encodeNIFrame p = .ok image) payloads images) :
    unframe max images.flatten = (payloads,[],false) := by
  induction himages with
  | nil => exact unframe_short (by decide)
  | cons hp _ ih =>
    obtain ⟨hfirst,hrest⟩ := List.forall_mem_cons.mp h
    rw [List.flatten_cons,encode_ok hp,unframe_payload hmax hfirst,ih hrest]

theorem new_decoder (h : newDecoder max = .ok d) : max ≤ 0xffffffff ∧ d.maxPayloadLength = max ∧
    d.failure = none ∧ Holds d [] := by
  rw [newDecoder] at h
  split at h
  · exact nomatch h
  · cases h
    exact ⟨by omega,rfl,rfl,⟨[],rfl,List.forall_mem_nil _,rfl,rfl⟩,rfl,le_refl 0⟩

theorem finish_eq (h : Holds d c) (hfailure : d.failure = none) :
    d.finish = if c = [] then .ok () else .error .truncatedStream := by
  rw [NIFrameDecoder.finish,hfailure,h.buffered]
  cases c with
  | nil => rfl
  | cons byte c => rfl

theorem delivery_exact (hd : newDecoder max = .ok d) (chunks : List (List UInt8)) :
    ∃ D W,deliver d chunks = some D ∧ deliver d [chunks.flatten] = some W ∧
      D.failure = W.failure ∧ D.decoder.finish = W.decoder.finish ∧
      (D.failure = none → D.frames = W.frames ∧ D.decoder.buffered +
        (D.frames.map fun frame => 4 + frame.length).sum = chunks.flatten.length) ∧
      (D.failure ≠ none → W.frames = [] ∧ ∃ before chunk after B E,
        chunks = before ++ chunk :: after ∧ deliver d before = some B ∧ B.failure = none ∧
        deliver d (before ++ [chunk]) = some E ∧ E.failure = D.failure ∧ D.frames = B.frames) ∧
      (∀ payloads images,(∀ p ∈ payloads,p.length ≤ max) →
        List.Forall₂ (fun p image => encodeNIFrame p = .ok image) payloads images →
        images.flatten = chunks.flatten →
        D.frames = payloads ∧ D.failure = none ∧ D.decoder.finish = .ok ()) := by
  obtain ⟨hmax,hlimit,hfailure,hholds⟩ := new_decoder hd
  have hidle : unframe d.maxPayloadLength [] = ([],[],false) := unframe_short (by decide)
  have hdeliver := fun chunks => deliver_spec chunks hholds hfailure hidle
  obtain ⟨D,hD,hDelivered⟩ := hdeliver chunks
  obtain ⟨W,hW,hWhole⟩ := hdeliver [chunks.flatten]
  have hDwhole := hDelivered.whole
  have hDfailed := hDelivered.failed
  have hWwhole := hWhole.whole
  have hWfailed := hWhole.failed
  rw [List.flatten_singleton] at hWwhole hWfailed
  rw [hlimit,List.nil_append] at hDwhole hDfailed hWwhole hWfailed
  refine ⟨D,W,hD,hW,?_⟩
  cases hlarge : (unframe max chunks.flatten).2.2 with
  | false =>
    obtain ⟨hD1,hD2,hD3,hD4⟩ := hDwhole hlarge
    obtain ⟨hW1,hW2,hW3,hW4⟩ := hWwhole hlarge
    refine ⟨hD1.trans hW1.symm,?_,fun _ => ⟨hD2.trans hW2.symm,?_⟩,fun h => absurd hD1 h,?_⟩
    · rw [finish_eq hD3 hD4,finish_eq hW3 hW4]
    · rw [hD3.buffered,hD2,unframe_length]
    · intro payloads images hpayloads himages hflatten
      have himages := unframe_images hmax hpayloads himages
      rw [hflatten] at himages
      refine ⟨by rw [hD2,himages],hD1,?_⟩
      rw [finish_eq hD3 hD4,himages,if_pos rfl]
  | true =>
    obtain ⟨hD1,hD2,before,chunk,after,rfl,hbefore,hchunk,hframes⟩ := hDfailed hlarge
    obtain ⟨hW1,hW2,before',chunk',after',hsplit,hbefore',hchunk',hframes'⟩ := hWfailed hlarge
    obtain ⟨B,hB,hBdelivered⟩ := hdeliver before
    obtain ⟨E,hE,hEdelivered⟩ := hdeliver (before ++ [chunk])
    have hBwhole := hBdelivered.whole
    have hEfailed := hEdelivered.failed
    rw [hlimit,List.nil_append] at hBwhole hEfailed
    rw [List.nil_append] at hbefore hchunk hframes hframes'
    obtain ⟨hB1,hB2,_⟩ := hBwhole hbefore
    obtain ⟨hE1,_⟩ := hEfailed hchunk
    refine ⟨hD1.trans hW1.symm,?_,fun h => absurd (hD1.symm.trans h) nofun,fun _ => ⟨?_,?_⟩,?_⟩
    · rw [NIFrameDecoder.finish,NIFrameDecoder.finish,hD2,hW2]
    · cases before' with
      | nil =>
        rw [hframes',List.flatten_nil,unframe_short (by decide)]
      | cons first before' =>
        rw [List.cons_append,List.cons.injEq] at hsplit
        exact absurd hsplit.2.symm (by simp only [List.append_eq_nil_iff,reduceCtorEq,and_false,
          not_false_eq_true])
    · exact ⟨before,chunk,after,B,E,rfl,hB,hB1,hE,hE1.trans hD1.symm,hframes.trans hB2.symm⟩
    · intro payloads images hpayloads himages hflatten
      have himages := unframe_images hmax hpayloads himages
      rw [hflatten] at himages
      rw [himages] at hlarge
      exact nomatch hlarge

theorem new_four : newDecoder 4 = .ok {maxPayloadLength := 4} := rfl

theorem delivery_exact_sample : ∃ D W,
    deliver {maxPayloadLength := 4} [[0,0],[0,1,65]] = some D ∧
    deliver {maxPayloadLength := 4} [[0,0,0,1,65]] = some W ∧ D.failure = W.failure := by
  obtain ⟨D,W,hD,hW,hfailure,_⟩ := delivery_exact new_four [[0,0],[0,1,65]]
  exact ⟨D,W,hD,hW,hfailure⟩

theorem frame_dropped : newDecoder 4 = .ok {maxPayloadLength := 4} ∧
    (deliver {maxPayloadLength := 4} [[0,0,0,0],[0,0,0,5]]).map Delivery.frames = some [[]] ∧
    (deliver {maxPayloadLength := 4} [[0,0,0,0,0,0,0,5]]).map Delivery.frames = some [] :=
  ⟨rfl,rfl,rfl⟩

end OpenSteamgate.Protocols.Ni
