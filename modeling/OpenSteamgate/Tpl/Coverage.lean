import OpenSteamgate.Tpl.Sections

namespace OpenSteamgate.Tpl

structure IsTag (source : Source) (t : Token) : Prop where
  nonempty : t.start < t.stop
  stop : t.stop ≤ source.length
  opened : source[t.start]? = some '{'
  closed : source[t.stop - 1]? = some '}'
  kind : t.kind ≠ .static

structure Alone (source : Source) (t : Token) (c : Range) : Prop where
  starts : c.start = 0 ∨ ∃ j, c.start = j + 1 ∧ source[j]? = some '\n'
  start : c.start ≤ t.start
  before : BlankOn source c.start t.start
  after : ∃ e, t.stop ≤ e ∧ BlankOn source t.stop e ∧ EndsAt source e c.stop

def removed (source : Source) (ts : List Token) : List Range :=
  (marked source ts).flatMap fun m =>
    (m.2.map fun c => [⟨c.start,m.1.start⟩,⟨m.1.stop,c.stop⟩]).getD []

section tags

variable {source : Source} {t : Token} {ts : List Token} {fuel pos : ℕ}

theorem kindOf_ne (c : Char) : kindOf c ≠ some .static := by
  unfold kindOf
  split
  all_goals simp

theorem tagKind_static {triple : Bool} {tag : Source} (h : (tagKind triple tag).1 = .static) :
    (tagKind triple tag).2 = [] := by
  cases triple with
  | true =>
    cases tag with
    | nil => cases h
    | cons c tag => cases h
  | false =>
    cases tag with
    | nil => rfl
    | cons c tag =>
      unfold tagKind at h
      dsimp only at h
      cases hk : kindOf c with
      | none =>
        rw [hk] at h
        cases h
      | some kind =>
        rw [hk] at h
        dsimp only at h
        rw [h] at hk
        exact absurd hk (kindOf_ne c)

theorem tagAt_ok {opened : ℕ} (hopened : ['{','{'] <+: source.drop opened)
    (h : tagAt source opened = .ok t) : IsTag source t ∧ t.start = opened := by
  unfold tagAt at h
  dsimp only at h
  have hmark : ∃ m, 0 < m ∧ (if ['{','{','{'].isPrefixOf (source.drop opened) = true then
      ['}','}','}'] else ['}','}']) = List.replicate m '}' := by
    split
    · exact ⟨3,by decide,rfl⟩
    · exact ⟨2,by decide,rfl⟩
  obtain ⟨m,hm,hmark⟩ := hmark
  rw [hmark] at h
  cases hfind : find source (List.replicate m '}') opened with
  | none =>
    rw [hfind] at h
    cases h
  | some closed =>
    rw [hfind] at h
    dsimp only at h
    obtain ⟨hle,hlen,⟨rest,hrest⟩,-⟩ := find_some (by simpa using hm) hfind
    rw [List.length_replicate] at hlen h
    have hbrace : source[opened]? = some '{' := by
      obtain ⟨after,hafter⟩ := hopened
      rw [← List.head?_drop,← hafter]
      rfl
    have hend : source[closed + m - 1]? = some '}' := by
      have hget : (source.drop closed)[m - 1]? = source[closed + (m - 1)]? := List.getElem?_drop
      rw [← hrest,List.getElem?_append_left (by rw [List.length_replicate]; omega),List.getElem?_replicate,
        if_pos (by omega)] at hget
      rw [Nat.add_sub_assoc (by omega)]
      exact hget.symm
    have hempty := @tagKind_static (['{','{','{'].isPrefixOf (source.drop opened))
      (trim ((source.drop (opened + m)).take (closed - opened - m)))
    generalize tagKind (['{','{','{'].isPrefixOf (source.drop opened))
      (trim ((source.drop (opened + m)).take (closed - opened - m))) = r at h hempty
    obtain ⟨kind,name⟩ := r
    split at h
    · cases h
    · next hname =>
      cases h
      refine ⟨⟨Nat.lt_of_le_of_lt hle (show closed < closed + m by omega),hlen,hbrace,hend,fun hstatic => ?_⟩,rfl⟩
      have hkind : kind = .static := hstatic
      have hnone : name = [] := hempty hkind
      rw [hkind,hnone] at hname
      exact hname ⟨by decide,.inl rfl⟩

theorem tagsFrom_tags (h : tagsFrom source fuel pos = .ok ts) :
    (∀ t ∈ ts,IsTag source t ∧ pos ≤ t.start) ∧ ts.Pairwise Token.Before := by
  induction fuel generalizing pos ts with
  | zero => cases h
  | succ fuel ih =>
    rw [tagsFrom] at h
    cases hfind : find source ['{','{'] pos with
    | none =>
      rw [hfind] at h
      cases h
      exact ⟨by simp,.nil⟩
    | some opened =>
      rw [hfind] at h
      dsimp only [bind,Except.bind] at h
      obtain ⟨hpos,-,hthere,-⟩ := find_some (by simp) hfind
      cases htag : tagAt source opened with
      | error e =>
        rw [htag] at h
        cases h
      | ok tag =>
        rw [htag] at h
        dsimp only at h
        cases hrest : tagsFrom source fuel tag.stop with
        | error e =>
          rw [hrest] at h
          cases h
        | ok rest =>
          rw [hrest] at h
          cases h
          obtain ⟨htag,hstart⟩ := tagAt_ok hthere htag
          obtain ⟨htags,hsorted⟩ := ih hrest
          refine ⟨List.forall_mem_cons.mpr ⟨⟨htag,by omega⟩,fun o ho => ?_⟩,
            List.pairwise_cons.mpr ⟨fun o ho => (htags o ho).2,hsorted⟩⟩
          have := (htags o ho).2
          have := htag.nonempty
          exact ⟨(htags o ho).1,by omega⟩

end tags

section standing

variable {source : Source} {t o : Token} {c d : Range} {ts others : List Token}

theorem Alone.stop (h : Alone source t c) : t.stop ≤ c.stop := by
  obtain ⟨e,he,-,⟨-,hstop⟩ | ⟨-,hstop⟩ | ⟨-,-,hstop⟩⟩ := h.after
  · omega
  · omega
  · omega

theorem Alone.apart (h : Alone source t c) (ho : IsTag source o)
    (hapart : o.stop ≤ t.start ∨ t.stop ≤ o.start) : o.stop ≤ c.start ∨ c.stop ≤ o.start := by
  have hnonempty := ho.nonempty
  have hlen := ho.stop
  rcases hapart with hbefore | hafter
  · refine .inl (Nat.not_lt.mp fun hlt => ?_)
    exact h.before.no (c := '}') (by decide) (by decide) (o.stop - 1) (by omega) (by omega) ho.closed
  · refine .inr ?_
    obtain ⟨e,he,hblank,hends⟩ := h.after
    have hfrom : e ≤ o.start := Nat.not_lt.mp fun hlt =>
      hblank.no (c := '{') (by decide) (by decide) o.start hafter hlt ho.opened
    have hne {k : ℕ} {x : Char} (hk : source[k]? = some x) (hx : x ≠ '{') : k ≠ o.start := by
      rintro rfl
      rw [ho.opened] at hk
      exact hx (Option.some.inj hk).symm
    rcases hends with ⟨hend,-⟩ | ⟨hlf,hstop⟩ | ⟨hcr,hlf,hstop⟩
    · omega
    · have := hne hlf (by decide)
      omega
    · have := hne hcr (by decide)
      have := hne hlf (by decide)
      omega

theorem Alone.sorted (h : Alone source t c) (h' : Alone source o d) (ht : IsTag source t)
    (ho : IsTag source o) (hbefore : t.stop ≤ o.start) : c.stop ≤ d.start := by
  have hstart := h.start
  have hnonempty := ht.nonempty
  have hnonempty' := ho.nonempty
  have hlen := ho.stop
  have hle : c.stop ≤ o.start := (h.apart ho (.inr hbefore)).resolve_left (by omega)
  have hstop := h.stop
  refine Nat.not_lt.mp fun hlt => ?_
  have hline : source[c.stop - 1]? = some '\n' := by
    obtain ⟨e,he,-,⟨hend,hstop⟩ | ⟨hlf,hstop⟩ | ⟨-,hlf,hstop⟩⟩ := h.after
    · omega
    · rw [hstop]
      exact hlf
    · rw [hstop]
      exact hlf
  exact h'.before.no (c := '\n') (by decide) (by decide) (c.stop - 1) (by omega) (by omega) hline

theorem mark_token (source : Source) (others : List Token) (t : Token) :
    (mark source others t).1.start = t.start ∧ (mark source others t).1.stop = t.stop ∧
      (mark source others t).1.kind = t.kind := by
  unfold mark
  dsimp only
  split
  · exact ⟨rfl,rfl,rfl⟩
  · split
    · exact ⟨rfl,rfl,rfl⟩
    · split
      · exact ⟨rfl,rfl,rfl⟩
      · exact ⟨rfl,rfl,rfl⟩

theorem alone_iff (ht : IsTag source t) : Alone source t c ↔
    (c = ⟨lineStart source t.start,cutEnd source t.stop⟩ ∧
      isBlank (slice source (lineStart source t.start) t.start) = true ∧
      isBlank (behind source t.stop) = true) := by
  have hstart : t.start ≤ source.length := by
    have := ht.nonempty
    have := ht.stop
    omega
  constructor
  · intro h
    obtain ⟨hblank,hstop⟩ := (behind_blank ht.stop).mpr h.after
    have hline : lineStart source t.start = c.start :=
      lineStart_eq h.start (h.before.no (by decide) (by decide)) h.starts
    refine ⟨?_,?_,hblank⟩
    · rw [hline,← hstop]
    · rw [hline,isBlank_slice hstart]
      exact h.before
  · rintro ⟨rfl,hbefore,hafter⟩
    obtain ⟨hle,-,hstarts⟩ := lineStart_spec source t.start
    rw [isBlank_slice hstart] at hbefore
    exact ⟨hstarts,hle,hbefore,(behind_blank ht.stop).mp ⟨hafter,rfl⟩⟩

theorem mark_iff (ht : IsTag source t)
    (hothers : ∀ o ∈ others,IsTag source o ∧ (o.stop ≤ t.start ∨ t.stop ≤ o.start)) :
    (mark source others t).2 = some c ↔ (t.kind ≠ .var ∧ t.kind ≠ .raw) ∧ Alone source t c := by
  unfold mark
  dsimp only
  by_cases hkind : t.kind = .var ∨ t.kind = .raw
  · rw [if_pos hkind]
    constructor
    · intro h
      cases h
    · rintro ⟨⟨hvar,hraw⟩,-⟩
      exact absurd hkind (not_or.mpr ⟨hvar,hraw⟩)
  · rw [if_neg hkind]
    rw [alone_iff ht]
    by_cases hblank : isBlank (slice source (lineStart source t.start) t.start) = false ∨
        isBlank (behind source t.stop) = false
    · rw [if_pos hblank]
      constructor
      · intro h
        cases h
      · rintro ⟨-,-,hbefore,hafter⟩
        rw [hbefore,hafter] at hblank
        simp at hblank
    · rw [if_neg hblank]
      rw [not_or,Bool.not_eq_false,Bool.not_eq_false] at hblank
      have halone := (alone_iff ht).mpr ⟨rfl,hblank⟩
      have hany : (others.any fun o => decide (o.start < lineEnd source t.stop) &&
          decide (lineStart source t.start < o.stop)) = false := by
        rw [List.any_eq_false]
        intro o ho
        have hout := halone.apart (hothers o ho).1 (hothers o ho).2
        have hcut := lineEnd_le_cutEnd ht.stop
        simp only [Bool.and_eq_true,decide_eq_true_eq]
        dsimp only at hout
        omega
      rw [if_neg (by simp [hany])]
      constructor
      · intro h
        exact ⟨not_or.mp hkind,(Option.some.inj h).symm,hblank⟩
      · rintro ⟨-,rfl,-⟩
        rfl

end standing

section coverage

variable {source : Source} {ts : List Token} {i j : ℕ} {t o : Token} {c d : Range}

structure Tags (source : Source) (ts : List Token) : Prop where
  tag : ∀ t ∈ ts, IsTag source t
  sorted : ts.Pairwise Token.Before

theorem tags_tags (h : tags source = .ok ts) : Tags source ts :=
  ⟨fun t ht => ((tagsFrom_tags h).1 t ht).1,(tagsFrom_tags h).2⟩

theorem Tags.get (h : Tags source ts) (hi : ts[i]? = some t) : IsTag source t :=
  h.tag t (List.mem_of_getElem? hi)

theorem Tags.before (h : Tags source ts) (hi : ts[i]? = some t) (hj : ts[j]? = some o) (hlt : i < j) :
    t.stop ≤ o.start := by
  obtain ⟨hi',rfl⟩ := List.getElem?_eq_some_iff.mp hi
  obtain ⟨hj',rfl⟩ := List.getElem?_eq_some_iff.mp hj
  exact List.pairwise_iff_getElem.mp h.sorted i j hi' hj' hlt

theorem Tags.apart (h : Tags source ts) (hi : ts[i]? = some t) (hj : ts[j]? = some o) (hne : j ≠ i) :
    o.stop ≤ t.start ∨ t.stop ≤ o.start := by
  rcases Nat.lt_or_gt_of_ne hne with hlt | hlt
  · exact .inl (h.before hj hi hlt)
  · exact .inr (h.before hi hj hlt)

theorem marked_get (hi : ts[i]? = some t) :
    (marked source ts)[i]? = some (mark source (ts.eraseIdx i) t) := by
  rw [marked,List.getElem?_map,List.getElem?_zipIdx,hi]
  simp

theorem length_marked : (marked source ts).length = ts.length := by
  simp [marked]

theorem mem_marked {m : Token × Option Range} (hm : m ∈ marked source ts) :
    ∃ (i : ℕ) (t : Token),ts[i]? = some t ∧ m = mark source (ts.eraseIdx i) t := by
  obtain ⟨i,hi⟩ := List.mem_iff_getElem?.mp hm
  have hlength : (marked source ts).length = ts.length := length_marked
  have hlt : i < ts.length := hlength ▸ (List.getElem?_eq_some_iff.mp hi).1
  have hget := List.getElem?_eq_getElem hlt
  rw [marked_get hget] at hi
  exact ⟨i,ts[i],hget,(Option.some.inj hi).symm⟩

theorem Tags.mark_iff (h : Tags source ts) (hi : ts[i]? = some t) :
    (mark source (ts.eraseIdx i) t).2 = some c ↔
      (t.kind ≠ .var ∧ t.kind ≠ .raw) ∧ Alone source t c := by
  refine Tpl.mark_iff (h.get hi) fun o ho => ?_
  obtain ⟨j,hne,hj⟩ := List.mem_eraseIdx_iff_getElem?.mp ho
  exact ⟨h.get hj,h.apart hi hj hne⟩

theorem Tags.cut (h : Tags source ts) (hc : c ∈ (marked source ts).filterMap Prod.snd) :
    ∃ (i : ℕ) (t : Token),ts[i]? = some t ∧ Alone source t c := by
  obtain ⟨m,hm,hmc⟩ := List.mem_filterMap.mp hc
  obtain ⟨i,t,hi,rfl⟩ := mem_marked hm
  exact ⟨i,t,hi,((h.mark_iff hi).mp hmc).2⟩

theorem pairwise_marked {R : Token × Option Range → Token × Option Range → Prop}
    (h : ∀ i j t o,ts[i]? = some t → ts[j]? = some o → i < j →
      R (mark source (ts.eraseIdx i) t) (mark source (ts.eraseIdx j) o)) :
    (marked source ts).Pairwise R := by
  refine List.pairwise_iff_getElem.mpr fun i j hi hj hlt => ?_
  have hlength : (marked source ts).length = ts.length := length_marked
  have hi' := List.getElem?_eq_getElem (hlength ▸ hi)
  have hj' := List.getElem?_eq_getElem (hlength ▸ hj)
  have hmi : (marked source ts)[i]? = _ := marked_get hi'
  have hmj : (marked source ts)[j]? = _ := marked_get hj'
  rw [List.getElem?_eq_getElem hi] at hmi
  rw [List.getElem?_eq_getElem hj] at hmj
  rw [Option.some.inj hmi,Option.some.inj hmj]
  exact h i j _ _ hi' hj' hlt

theorem Tags.cuts (h : Tags source ts) : Cuts ((marked source ts).filterMap Prod.snd) where
  sorted := by
    refine List.pairwise_filterMap.mpr (pairwise_marked fun i j t o hi hj hlt => ?_)
    intro c hc d hd
    exact ((h.mark_iff hi).mp hc).2.sorted ((h.mark_iff hj).mp hd).2 (h.get hi) (h.get hj)
      (h.before hi hj hlt)
  nonempty c hc := by
    obtain ⟨i,t,hi,halone⟩ := h.cut hc
    have := halone.start
    have := (h.get hi).nonempty
    have := halone.stop
    omega

theorem Tags.cut_apart (h : Tags source ts) (hi : ts[i]? = some t) (halone : Alone source t c)
    (hj : ts[j]? = some o) : j = i ∧ c.start ≤ o.start ∧ o.stop ≤ c.stop ∨
      j ≠ i ∧ (o.stop ≤ c.start ∨ c.stop ≤ o.start) := by
  by_cases hji : j = i
  · rw [hji,hi] at hj
    rw [← Option.some.inj hj]
    exact .inl ⟨hji,halone.start,halone.stop⟩
  · exact .inr ⟨hji,halone.apart (h.get hj) (h.apart hi hj hji)⟩

theorem Tags.laid (h : Tags source ts) :
    Laid ((marked source ts).filterMap Prod.snd) ((marked source ts).map Prod.fst) where
  sorted := by
    refine List.pairwise_map.mpr (pairwise_marked fun i j t o hi hj hlt => ?_)
    rw [Token.Before,(mark_token _ _ t).2.1,(mark_token _ _ o).1]
    exact h.before hi hj hlt
  nonempty t' ht' := by
    obtain ⟨m,hm,rfl⟩ := List.mem_map.mp ht'
    obtain ⟨i,t,hi,rfl⟩ := mem_marked hm
    rw [(mark_token _ _ t).1,(mark_token _ _ t).2.1]
    exact (h.get hi).nonempty
  kinds t' ht' := by
    obtain ⟨m,hm,rfl⟩ := List.mem_map.mp ht'
    obtain ⟨i,t,hi,rfl⟩ := mem_marked hm
    rw [(mark_token _ _ t).2.2]
    exact (h.get hi).kind
  apart t' ht' c hc := by
    obtain ⟨m,hm,rfl⟩ := List.mem_map.mp ht'
    obtain ⟨i,t,hi,rfl⟩ := mem_marked hm
    obtain ⟨j,o,hj,halone⟩ := h.cut hc
    rw [(mark_token _ _ t).1,(mark_token _ _ t).2.1]
    rcases h.cut_apart hj halone hi with ⟨-,hin⟩ | ⟨-,hout⟩
    · exact .inl hin
    · exact .inr hout
  alone := by
    refine List.pairwise_map.mpr (pairwise_marked fun i j t o hi hj hlt => ?_)
    intro c hc hstart hstop
    rw [(mark_token _ _ t).1] at hstart
    rw [(mark_token _ _ t).2.1] at hstop
    rw [(mark_token _ _ o).1]
    obtain ⟨k,u,hk,halone⟩ := h.cut hc
    have hnonempty := (h.get hi).nonempty
    have hnonempty' := (h.get hj).nonempty
    have hbefore := h.before hi hj hlt
    rcases h.cut_apart hk halone hi with ⟨hik,-⟩ | ⟨-,hout⟩
    · rcases h.cut_apart hk halone hj with ⟨hjk,-⟩ | ⟨-,hout⟩
      · omega
      · exact hout.resolve_left (by omega)
    · omega

theorem mem_removed {r : Range} (h : Tags source ts) : r ∈ removed source ts ↔
    ∃ (i : ℕ) (t : Token) (c : Range),ts[i]? = some t ∧ (t.kind ≠ .var ∧ t.kind ≠ .raw) ∧ Alone source t c ∧
      (r = ⟨c.start,t.start⟩ ∨ r = ⟨t.stop,c.stop⟩) := by
  unfold removed
  rw [List.mem_flatMap]
  constructor
  · rintro ⟨m,hm,hr⟩
    obtain ⟨i,t,hi,rfl⟩ := mem_marked hm
    cases hc : (mark source (ts.eraseIdx i) t).2 with
    | none =>
      rw [hc] at hr
      cases hr
    | some c =>
      rw [hc,(mark_token _ _ t).1,(mark_token _ _ t).2.1] at hr
      obtain ⟨hkind,halone⟩ := (h.mark_iff hi).mp hc
      exact ⟨i,t,c,hi,hkind,halone,by simpa using hr⟩
  · rintro ⟨i,t,c,hi,hkind,halone,hr⟩
    refine ⟨mark source (ts.eraseIdx i) t,List.mem_of_getElem? (marked_get hi),?_⟩
    rw [(h.mark_iff hi).mpr ⟨hkind,halone⟩,(mark_token _ _ t).1,(mark_token _ _ t).2.1]
    simpa using hr

theorem Tags.removed_sorted (h : Tags source ts) : (removed source ts).Pairwise Range.Before := by
  refine List.pairwise_flatMap.mpr ⟨fun m hm => ?_,pairwise_marked fun i j t o hi hj hlt => ?_⟩
  · obtain ⟨i,t,hi,rfl⟩ := mem_marked hm
    cases hc : (mark source (ts.eraseIdx i) t).2 with
    | none => exact .nil
    | some c =>
      rw [Option.map_some,Option.getD_some,(mark_token _ _ t).1,(mark_token _ _ t).2.1]
      refine List.pairwise_pair.mpr ?_
      exact Nat.le_of_lt (h.get hi).nonempty
  · intro r hr r' hr'
    cases hc : (mark source (ts.eraseIdx i) t).2 with
    | none =>
      rw [hc] at hr
      cases hr
    | some c =>
      cases hd : (mark source (ts.eraseIdx j) o).2 with
      | none =>
        rw [hd] at hr'
        cases hr'
      | some d =>
        rw [hc,(mark_token _ _ t).1,(mark_token _ _ t).2.1] at hr
        rw [hd,(mark_token _ _ o).1,(mark_token _ _ o).2.1] at hr'
        have hct := ((h.mark_iff hi).mp hc).2
        have hdo := ((h.mark_iff hj).mp hd).2
        have hsorted := hct.sorted hdo (h.get hi) (h.get hj) (h.before hi hj hlt)
        have hstart := hct.start
        have hstart' := hdo.start
        have hnonempty := (h.get hi).nonempty
        have hnonempty' := (h.get hj).nonempty
        have hstop := hct.stop
        have hr : r = ⟨c.start,t.start⟩ ∨ r = ⟨t.stop,c.stop⟩ := by simpa using hr
        have hr' : r' = ⟨d.start,o.start⟩ ∨ r' = ⟨o.stop,d.stop⟩ := by simpa using hr'
        unfold Range.Before
        rcases hr with rfl | rfl
        · rcases hr' with rfl | rfl
          · dsimp only
            omega
          · dsimp only
            omega
        · rcases hr' with rfl | rfl
          · dsimp only
            omega
          · dsimp only
            omega

theorem Tags.removed_has (h : Tags source ts) : (∃ r ∈ removed source ts,r.Has i) ↔
    (∃ c ∈ (marked source ts).filterMap Prod.snd,c.Has i) ∧ ∀ t ∈ ts,¬t.Has i := by
  constructor
  · rintro ⟨r,hr,hhas⟩
    obtain ⟨k,t,c,hk,hkind,halone,hr⟩ := (mem_removed h).mp hr
    have hmark := (h.mark_iff hk).mpr ⟨hkind,halone⟩
    have hstart := halone.start
    have hnonempty := (h.get hk).nonempty
    have hstop := halone.stop
    have hin : c.start ≤ i ∧ i < c.stop ∧ (i < t.start ∨ t.stop ≤ i) := by
      obtain ⟨hfrom,hto⟩ := hhas
      rcases hr with rfl | rfl
      · dsimp only at hfrom hto
        omega
      · dsimp only at hfrom hto
        omega
    refine ⟨⟨c,List.mem_filterMap.mpr ⟨_,List.mem_of_getElem? (marked_get hk),hmark⟩,hin.1,hin.2.1⟩,?_⟩
    rintro o ho ⟨hfrom,hto⟩
    obtain ⟨j,hj⟩ := List.mem_iff_getElem?.mp ho
    rcases h.cut_apart hk halone hj with ⟨hjk,-⟩ | ⟨-,hout⟩
    · rw [hjk,hk] at hj
      obtain rfl := Option.some.inj hj
      omega
    · omega
  · rintro ⟨⟨c,hc,hfrom,hto⟩,hno⟩
    obtain ⟨m,hm,hmc⟩ := List.mem_filterMap.mp hc
    obtain ⟨k,t,hk,rfl⟩ := mem_marked hm
    obtain ⟨hkind,halone⟩ := (h.mark_iff hk).mp hmc
    have hnot := hno t (List.mem_of_getElem? hk)
    by_cases hbefore : i < t.start
    · exact ⟨⟨c.start,t.start⟩,(mem_removed h).mpr ⟨k,t,c,hk,hkind,halone,.inl rfl⟩,hfrom,hbefore⟩
    · have hafter : t.stop ≤ i := Nat.not_lt.mp fun hlt => hnot ⟨by omega,hlt⟩
      exact ⟨⟨t.stop,c.stop⟩,(mem_removed h).mpr ⟨k,t,c,hk,hkind,halone,.inr rfl⟩,hafter,hto⟩

theorem Tags.len (h : Tags source ts) : ∀ t ∈ (marked source ts).map Prod.fst,
    t.stop ≤ source.length := by
  intro t' ht'
  obtain ⟨m,hm,rfl⟩ := List.mem_map.mp ht'
  obtain ⟨i,t,hi,rfl⟩ := mem_marked hm
  rw [(mark_token _ _ t).2.1]
  exact (h.get hi).stop

theorem marked_has : (∃ t ∈ (marked source ts).map Prod.fst,t.Has i) ↔ ∃ t ∈ ts,t.Has i := by
  constructor
  · rintro ⟨t',ht',hhas⟩
    obtain ⟨m,hm,rfl⟩ := List.mem_map.mp ht'
    obtain ⟨k,t,hk,rfl⟩ := mem_marked hm
    rw [Token.Has,(mark_token _ _ t).1,(mark_token _ _ t).2.1] at hhas
    exact ⟨t,List.mem_of_getElem? hk,hhas⟩
  · rintro ⟨t,ht,hhas⟩
    obtain ⟨k,hk⟩ := List.mem_iff_getElem?.mp ht
    refine ⟨_,List.mem_map.mpr ⟨_,List.mem_of_getElem? (marked_get hk),rfl⟩,?_⟩
    rw [Token.Has,(mark_token _ _ t).1,(mark_token _ _ t).2.1]
    exact hhas

theorem Tags.covered (h : Tags source ts) (hi : i < source.length) :
    (∃ t ∈ markStandalone source ts,t.Has i) ↔ ¬∃ r ∈ removed source ts,r.Has i := by
  have hstatic := woven_static h.cuts h.laid (fun t _ => Nat.zero_le _) h.len (Nat.zero_le i) hi
  have hfilter : (markStandalone source ts).filter (fun t => decide (t.kind ≠ .static)) =
      (marked source ts).map Prod.fst := woven_tags h.laid.kinds
  have htag (t : Token) : t ∈ (marked source ts).map Prod.fst ↔
      t ∈ markStandalone source ts ∧ t.kind ≠ .static := by
    conv_lhs => rw [← hfilter]
    rw [List.mem_filter,decide_eq_true_eq]
  rw [h.removed_has]
  constructor
  · rintro ⟨t,ht,hhas⟩ ⟨⟨c,hc,hcut⟩,hno⟩
    by_cases hkind : t.kind = .static
    · exact (hstatic.mp ⟨t,ht,hkind,hhas⟩).2 c hc hcut
    · obtain ⟨o,ho,hohas⟩ := (marked_has).mp ⟨t,(htag t).mpr ⟨ht,hkind⟩,hhas⟩
      exact hno o ho hohas
  · intro hnot
    by_cases hin : ∃ t ∈ ts,t.Has i
    · obtain ⟨t,ht,hhas⟩ := (marked_has).mpr hin
      exact ⟨t,((htag t).mp ht).1,hhas⟩
    · have hno : ∀ t ∈ ts,¬t.Has i := fun t ht hhas => hin ⟨t,ht,hhas⟩
      have hno' : ∀ t ∈ (marked source ts).map Prod.fst,¬t.Has i := fun t ht hhas =>
        hin ((marked_has).mp ⟨t,ht,hhas⟩)
      obtain ⟨t,ht,-,hhas⟩ := hstatic.mpr ⟨hno',fun c hc hcut => hnot ⟨⟨c,hc,hcut⟩,hno⟩⟩
      exact ⟨t,ht,hhas⟩

end coverage

section parsing

variable {source : Source} {ts : List Token}

theorem template_covered (h : tags source = .ok ts) :
    let out := markStandalone source ts
    out.Pairwise Token.Before ∧ (∀ t ∈ out, t.start < t.stop ∧ t.stop ≤ source.length) ∧
      out.filter (fun t => decide (t.kind ≠ .static)) = (marked source ts).map Prod.fst ∧
      (removed source ts).Pairwise Range.Before ∧
      (∀ i < source.length, (∃ t ∈ out, t.Has i) ↔ ¬∃ r ∈ removed source ts, r.Has i) ∧
      (∀ (i : ℕ) (t : Token), ts[i]? = some t → ∃ (t' : Token) (cut : Option Range),
        (marked source ts)[i]? = some (t',cut) ∧
        t'.start = t.start ∧ t'.stop = t.stop ∧ t'.kind = t.kind ∧
        (∀ c, cut = some c ↔ (t.kind ≠ .var ∧ t.kind ≠ .raw) ∧ Alone source t c) ∧
        ∀ c, cut = some c → ∀ (j : ℕ) (o : Token), ts[j]? = some o → j ≠ i →
          o.stop ≤ c.start ∨ c.stop ≤ o.start) ∧
      (∀ tokens, parse source = .ok tokens ↔ ∃ ps, Nested 1 out ps ∧ tokens = closed ps out) ∧
      ((∃ e, parse source = .error e) ↔ ¬∃ ps, Nested 1 out ps) := by
  intro out
  have htags := tags_tags h
  have hzero : ∀ t ∈ (marked source ts).map Prod.fst, 0 ≤ t.start := fun t _ => Nat.zero_le _
  have hparse : parse source = matchSections source out := by
    rw [parse,tokenize,h]
    rfl
  refine ⟨woven_sorted htags.cuts htags.laid hzero htags.len,?_,woven_tags htags.laid.kinds,
    htags.removed_sorted,fun i hi => htags.covered hi,fun i t hi => ?_,fun tokens => ?_,?_⟩
  · exact fun t ht => (woven_bounds htags.cuts htags.laid hzero htags.len ht).2
  · obtain ⟨hstart,hstop,hkind⟩ := mark_token source (ts.eraseIdx i) t
    refine ⟨_,_,marked_get hi,hstart,hstop,hkind,fun c => htags.mark_iff hi,fun c hc j o hj hne => ?_⟩
    exact ((htags.mark_iff hi).mp hc).2.apart (htags.get hj) (htags.apart hi hj hne)
  · rw [hparse,matchSections]
    constructor
    · intro hok
      cases hrun : matchFrom source out 1 [] with
      | error e =>
        rw [hrun] at hok
        cases hok
      | ok ps =>
        rw [hrun] at hok
        cases hok
        exact ⟨ps,matchFrom_iff.mp hrun,rfl⟩
    · rintro ⟨ps,hnested,rfl⟩
      rw [matchFrom_iff.mpr hnested]
      rfl
  · rw [hparse,matchSections]
    constructor
    · rintro ⟨e,he⟩ ⟨ps,hnested⟩
      rw [matchFrom_iff.mpr hnested] at he
      cases he
    · intro hnone
      cases hrun : matchFrom source out 1 [] with
      | error e => exact ⟨e,rfl⟩
      | ok ps => exact absurd ⟨ps,matchFrom_iff.mp hrun⟩ hnone

def sectionSource : Source := "{{#a}}\nx\n{{/a}}\n".toList

def sectionTags : List Token :=
  [{kind := .opening,name := ['a'],start := 0,stop := 6},
    {kind := .close,name := ['a'],start := 9,stop := 15}]

theorem template_covered_section : tags sectionSource = .ok sectionTags ∧
    (∃ ps, Nested 1 (markStandalone sectionSource sectionTags) ps) ∧
    ∀ i < sectionSource.length, (∃ t ∈ markStandalone sectionSource sectionTags, t.Has i) ↔
      ¬∃ r ∈ removed sectionSource sectionTags, r.Has i := by
  have htags : tags sectionSource = .ok sectionTags := by decide +kernel
  obtain ⟨-,-,-,-,hcovered,-,hparse,-⟩ := template_covered htags
  have hparsed : parse sectionSource = .ok [
      {kind := .opening,name := ['a'],start := 0,stop := 6,close := 3,standalone := true},
      {kind := .static,start := 7,stop := 9},
      {kind := .close,name := ['a'],start := 9,stop := 15,standalone := true}] := by
    decide +kernel
  obtain ⟨ps,hnested,-⟩ := (hparse _).mp hparsed
  exact ⟨htags,⟨ps,hnested⟩,hcovered⟩

end parsing

end OpenSteamgate.Tpl
