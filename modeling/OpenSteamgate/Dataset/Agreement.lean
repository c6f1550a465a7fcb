import OpenSteamgate.Dataset.Confinement
import OpenSteamgate.Dataset.Resolution

namespace OpenSteamgate.Dataset

open Disk (Inode Step Stack Descends here names path walk)

variable {d₀ d : Tree} {limits : Limits} {cfg : Config} {s : Stack Name} {p q r real named : Path}
  {n : Name} {i new : Inode} {rs : List Path} {name : Text} {mode : Mode} {sb : Sandbox}

section lexical

theorem abs_resolve (cwd : Path) (text : Text) : resolve cwd [text] = abs cwd text := by
  rw [resolve,abs,List.reverse_singleton,resolveFrom,resolveFrom,List.append_nil]
  split
  · rfl
  · rfl

theorem isAbs_join {b : Text} (h : b ≠ []) (name : Text) : isAbs (join b name) = isAbs b := by
  cases b with
  | nil => exact absurd rfl h
  | cons c b => rfl

theorem resolve_two (cwd : Path) (b name : Text) : resolve cwd [b,name] =
    if isAbs name then abs cwd name else clean (if isAbs b then [] else cwd) (steps b ++ steps name) := by
  change resolveFrom cwd [name,b] [] = _
  rw [resolveFrom,resolveFrom,resolveFrom,List.append_nil]
  split
  · rename_i hname
    rw [abs,if_pos hname]
  · split
    · rfl
    · rfl

theorem resolve_join (cwd : Path) (b name : Text) (h : b ≠ []) :
    resolve cwd [b,name] = abs cwd (if isAbs name then name else join b name) := by
  rw [resolve_two]
  split
  · rfl
  · rw [abs,isAbs_join h,join,if_neg h,steps_join]

theorem holds_iff : Host.holds p r = true ↔ r <+: p := by
  rw [← within_one p r,Host.holds,trimSuffix]
  by_cases hsuffix : ['/'].isSuffixOf (render r) = true
  · obtain ⟨t,ht⟩ := List.isSuffixOf_iff_suffix.mp hsuffix
    rw [if_pos hsuffix,if_pos hsuffix]
    have htake : (render r).take ((render r).length - ['/'].length) ++ ['/'] = render r := by
      rw [← ht,List.length_append,Nat.add_sub_cancel,List.take_left]
    rw [htake]
  · rw [if_neg hsuffix,if_neg hsuffix]

theorem host_within_iff : Host.within p rs = within p rs := by
  rw [Bool.eq_iff_iff,within_iff,Host.within,List.any_eq_true]
  exact exists_congr fun r => and_congr_right fun _ => holds_iff

end lexical

theorem load_read : (Host.load limits cfg d).read = (roots limits cfg d []).read := by
  simp only [Host.load,abs_resolve]
  rfl

theorem load_write : (Host.load limits cfg d).write = (roots limits cfg d []).write := by
  simp only [Host.load,abs_resolve]
  rfl

theorem render_ne_nil (p : Path) : render p ≠ [] := by
  cases p with
  | nil => exact nofun
  | cons n p => exact nofun

theorem wanted_eq : Host.wanted cfg (Host.load limits cfg d) name =
    (roots limits cfg d []).datasetName name := by
  have hbase := roots_base limits cfg d
  rw [← load_write,← load_read] at hbase
  rw [Host.wanted,Sandbox.datasetName,hbase]
  change resolve cfg.cwd _ = abs cfg.cwd (if _ then _ else join (if cfg.home = [] then _ else cfg.home) _)
  by_cases hhome : cfg.home = []
  · rw [Host.home,if_pos hhome,if_pos hhome]
    cases (Host.load limits cfg d).write with
    | cons w write => exact resolve_join _ _ _ (render_ne_nil w)
    | nil =>
      cases (Host.load limits cfg d).read with
      | cons r read => exact resolve_join _ _ _ (render_ne_nil r)
      | nil =>
        change resolve cfg.cwd [['.'],name] = abs cfg.cwd (if isAbs name then name else name)
        rw [resolve_two,ite_self]
        split
        · rfl
        · rename_i hname
          rw [abs,if_neg hname]
          rfl
  · rw [Host.home,if_neg hhome,if_neg hhome]
    exact resolve_join _ _ _ hhome

theorem placed_eq (o : Option Path) : Host.placed real o rs = checked real o rs := by
  rw [Host.placed,checked,host_within_iff]
  cases within real rs with
  | false => rfl
  | true => rfl

def SameName (sb : Sandbox) (name : List Nat) (rs : List Path) (given : List Text) : Prop :=
  Admits sb (goText name) rs given → sb.datasetName (nodeText name) = sb.datasetName (goText name)

theorem place_eq {name : List Nat} {given : List Text} (h : SameName (roots limits cfg d₀ []) name rs given) :
    Host.place limits cfg (Host.load limits cfg d₀) d name rs given =
      (roots limits cfg d₀ []).place limits d (goText name) rs given := by
  have hcwd : (roots limits cfg d₀ []).cwd = cfg.cwd := rfl
  rw [Host.place,Sandbox.place,wanted_eq,wanted_eq,hcwd]
  simp only [abs_resolve,host_within_iff,placed_eq,List.length_eq_zero_iff,List.contains_iff_mem]
  split
  · rfl
  rename_i hroots
  split
  · rfl
  rename_i hnul
  split
  · rfl
  rename_i hlexical
  rw [Bool.and_eq_true,Bool.not_eq_true',Bool.not_eq_true',not_and_or,Bool.not_eq_false,
    Bool.not_eq_false] at hlexical
  rw [h ⟨hroots,hnul,hlexical⟩]
  cases evalSymlinks d limits ((roots limits cfg d₀ []).datasetName (goText name)) with
  | some real => rfl
  | none =>
    dsimp only
    split
    · rfl
    · cases entryPath d limits ((roots limits cfg d₀ []).datasetName (goText name)) with
      | none => rfl
      | some real => rfl

structure Outermost (p : Path) (rs : List Path) (r : Path) : Prop where
  mem : r ∈ rs
  holds : r <+: p
  least : ∀ q ∈ rs,q <+: p → r <+: q

theorem render_length (p : Path) (h : p ≠ []) : (render p).length + 1 = (ended p).length + 1 := by
  have hrender := congrArg List.length (render_ended h)
  rw [List.length_append] at hrender
  exact hrender

theorem ended_append (p q : Path) : ended (p ++ q) = ended p ++ ended q := List.flatMap_append

theorem render_lt (h : q <+: p) (hne : q ≠ p) : (render q).length < (render p).length := by
  obtain ⟨t,rfl⟩ := h
  cases t with
  | nil => exact absurd (List.append_nil q).symm hne
  | cons n t =>
    have hn := List.length_pos_iff.mpr n.2.1
    have hlong : 2 ≤ (ended (n :: t)).length := by
      rw [ended,List.flatMap_cons,List.length_append,List.length_append]
      change 2 ≤ n.1.length + 1 + _
      omega
    have hall := render_length (q ++ n :: t) (by simp)
    rw [ended_append,List.length_append] at hall
    by_cases hq : q = []
    · subst hq
      change 1 < _
      omega
    · have hq := render_length q hq
      omega

theorem prefix_of_shorter (hq : q <+: p) (hr : r <+: p) (hle : (render r).length ≤ (render q).length) :
    r <+: q := by
  rcases List.prefix_or_prefix_of_prefix hr hq with h | h
  · exact h
  · by_cases heq : q = r
    · exact heq ▸ List.prefix_rfl
    · exact absurd (render_lt h heq) (Nat.not_lt.mpr hle)

theorem Outermost.unique (h : Outermost p rs q) (h' : Outermost p rs r) : q = r :=
  (h.least r h'.mem h'.holds).eq_of_length_le (h'.least q h.mem h.holds).length_le

theorem holders_mem : q ∈ rs.filter (fun r => Host.within p [r]) ↔ q ∈ rs ∧ q <+: p := by
  rw [List.mem_filter,host_within_iff,within_iff]
  simp only [List.mem_singleton,exists_eq_left]

theorem host_outermost_spec (h : Host.outermost p rs = some r) : Outermost p rs r := by
  obtain ⟨hr,hholds⟩ := (holders_mem).mp (List.argmin_mem h)
  refine ⟨hr,hholds,fun q hq hqp => prefix_of_shorter hqp hholds ?_⟩
  exact List.le_of_mem_argmin (f := fun r : Path => (render r).length)
    ((holders_mem).mpr ⟨hq,hqp⟩) h

theorem host_outermost_none_iff : Host.outermost p rs = none ↔ ∀ r ∈ rs,¬r <+: p := by
  rw [Host.outermost,List.argmin_eq_none,List.eq_nil_iff_forall_not_mem]
  exact forall_congr' fun r => by rw [holders_mem,not_and]

theorem exists_outermost (h : ∃ r ∈ rs,r <+: p) : ∃ r,Outermost p rs r := by
  cases hhost : Host.outermost p rs with
  | some r => exact ⟨r,host_outermost_spec hhost⟩
  | none =>
    obtain ⟨r,hr,hholds⟩ := h
    exact absurd hholds ((host_outermost_none_iff).mp hhost r hr)

theorem host_outermost (h : Outermost p rs r) : Host.outermost p rs = some r := by
  cases hhost : Host.outermost p rs with
  | some q => rw [(host_outermost_spec hhost).unique h]
  | none => exact absurd h.holds ((host_outermost_none_iff).mp hhost r h.mem)

section handles

variable {handles : List (Path × Inode)} {paths : List Path}

theorem openHandles_kept (h : handles.lookup p = some i) :
    (openHandles d limits paths handles).lookup p = some i := by
  induction paths generalizing handles with
  | nil => exact h
  | cons q paths ih =>
    rw [openHandles]
    split
    · refine ih ?_
      rw [List.lookup_append,h]
      rfl
    · exact ih h

theorem openHandles_opened (hp : p ∈ paths) (hopen : openRoot d limits p = some i)
    (hhandles : ∀ e ∈ handles,openRoot d limits e.1 = some e.2) :
    (openHandles d limits paths handles).lookup p = some i := by
  induction paths generalizing handles with
  | nil => exact nomatch hp
  | cons q paths ih =>
    rw [openHandles]
    split
    · rename_i j hlookup hq
      have hmore : ∀ e ∈ handles ++ [(q,j)],openRoot d limits e.1 = some e.2 := fun e he => by
        rcases List.mem_append.mp he with he | he
        · exact hhandles e he
        · rw [List.mem_singleton.mp he]
          exact hq
      rcases List.mem_cons.mp hp with rfl | hp
      · obtain rfl := Option.some.inj (hopen.symm.trans hq)
        refine openHandles_kept ?_
        rw [List.lookup_append,hlookup,List.lookup_cons_self]
        rfl
      · exact ih hp hmore
    · rename_i hother
      rcases List.mem_cons.mp hp with rfl | hp
      · cases hlookup : handles.lookup p with
        | none => exact absurd hopen (hother i hlookup)
        | some j =>
          have hj := hhandles _ (lookup_mem hlookup)
          rw [Option.some.inj (hopen.symm.trans hj)]
          exact openHandles_kept hlookup
      · exact ih hp hhandles

theorem handles_lookup (hp : p ∈ (roots limits cfg d []).read) :
    (roots limits cfg d []).handles.lookup p = openRoot d limits p := by
  change (openHandles d limits (roots limits cfg d []).read []).lookup p = _
  cases hopen : openRoot d limits p with
  | some i => exact openHandles_opened hp hopen (List.forall_mem_nil _)
  | none =>
    cases hlookup : (openHandles d limits (roots limits cfg d []).read []).lookup p with
    | none => rfl
    | some i =>
      have hi : openRoot d limits p = some i := openHandles_mem (List.forall_mem_nil _) _
        (lookup_mem hlookup)
      exact absurd (hopen.symm.trans hi) nofun

end handles

def Usable (sb : Sandbox) (p r : Path) : Prop := r <+: p ∧ sb.handles.lookup r ≠ none

theorem closer_usable {best : Option Path} (h : Usable sb p r)
    (hbest : ∀ b ∈ best,(render r).length < (render b).length) : sb.closer p best r = some r :=
  if_pos ⟨within_iff.mpr ⟨r,List.mem_singleton_self r,h.1⟩,h.2,hbest⟩

theorem closer_kept {best : Option Path} (h : ¬Usable sb p r) : sb.closer p best r = best := by
  refine if_neg fun hc => h ⟨?_,hc.2.1⟩
  obtain ⟨q,hq,hholds⟩ := within_iff.mp hc.1
  exact List.mem_singleton.mp hq ▸ hholds

theorem closer_spec (best : Option Path) (hbest : ∀ b ∈ best,Usable sb p b) (x : Path) :
    (∀ b ∈ sb.closer p best x,(b ∈ best ∨ b = x) ∧ Usable sb p b ∧
      (∀ c ∈ best,(render b).length ≤ (render c).length) ∧
      (Usable sb p x → (render b).length ≤ (render x).length)) ∧
    (sb.closer p best x = none → best = none ∧ ¬Usable sb p x) := by
  by_cases hx : Usable sb p x
  · cases best with
    | none =>
      rw [closer_usable hx (by rintro b ⟨⟩)]
      refine ⟨fun b hb => ?_,nofun⟩
      obtain rfl := Option.some.inj hb
      exact ⟨.inr rfl,hx,by rintro c ⟨⟩,fun _ => Nat.le_refl _⟩
    | some c =>
      by_cases hlt : (render x).length < (render c).length
      · rw [closer_usable hx fun b hb => Option.some.inj hb ▸ hlt]
        refine ⟨fun b hb => ?_,nofun⟩
        obtain rfl := Option.some.inj hb
        exact ⟨.inr rfl,hx,fun e he => Option.some.inj he ▸ hlt.le,fun _ => Nat.le_refl _⟩
      · have hkept : sb.closer p (some c) x = some c := if_neg fun hc => hlt (hc.2.2 c rfl)
        rw [hkept]
        refine ⟨fun b hb => ?_,nofun⟩
        obtain rfl := Option.some.inj hb
        exact ⟨.inl rfl,hbest c rfl,fun e he => Option.some.inj he ▸ Nat.le_refl _,
          fun _ => Nat.le_of_not_lt hlt⟩
  · rw [closer_kept hx]
    refine ⟨fun b hb => ⟨.inl hb,hbest b hb,fun c hc => ?_,fun h => absurd h hx⟩,fun h => ⟨h,hx⟩⟩
    rw [Option.mem_unique hb hc]

theorem foldl_closer (best : Option Path) (hbest : ∀ b ∈ best,Usable sb p b) :
    (∀ b ∈ rs.foldl (sb.closer p) best,(b ∈ best ∨ b ∈ rs) ∧ Usable sb p b ∧
      (∀ c ∈ best,(render b).length ≤ (render c).length) ∧
      ∀ r ∈ rs,Usable sb p r → (render b).length ≤ (render r).length) ∧
    (rs.foldl (sb.closer p) best = none → best = none ∧ ∀ r ∈ rs,¬Usable sb p r) := by
  induction rs generalizing best with
  | nil =>
    refine ⟨fun b hb => ⟨.inl hb,hbest b hb,fun c hc => ?_,List.forall_mem_nil _⟩,
      fun h => ⟨h,List.forall_mem_nil _⟩⟩
    rw [Option.mem_unique hb hc]
  | cons x rs ih =>
    obtain ⟨hsome,hnone⟩ := closer_spec best hbest x
    obtain ⟨ihsome,ihnone⟩ := ih (sb.closer p best x) fun b hb => (hsome b hb).2.1
    rw [List.foldl_cons]
    refine ⟨fun b hb => ?_,fun h => ?_⟩
    · obtain ⟨hmem,husable,hleast,hrest⟩ := ihsome b hb
      refine ⟨?_,husable,fun c hc => ?_,List.forall_mem_cons.mpr ⟨fun hx => ?_,hrest⟩⟩
      · rcases hmem with hmem | hmem
        · rcases (hsome b hmem).1 with hb | rfl
          · exact .inl hb
          · exact .inr List.mem_cons_self
        · exact .inr (List.mem_cons_of_mem x hmem)
      · cases hcloser : sb.closer p best x with
        | none => exact absurd ((hnone hcloser).1 ▸ hc) nofun
        | some e => exact (hleast e hcloser).trans ((hsome e hcloser).2.2.1 c hc)
      · cases hcloser : sb.closer p best x with
        | none => exact absurd hx (hnone hcloser).2
        | some e => exact (hleast e hcloser).trans ((hsome e hcloser).2.2.2 hx)
    · obtain ⟨hbest',hrest⟩ := ihnone h
      obtain ⟨hempty,hx⟩ := hnone hbest'
      exact ⟨hempty,List.forall_mem_cons.mpr ⟨hx,hrest⟩⟩

theorem sandbox_outermost (h : Outermost p rs r) (hheld : sb.handles.lookup r ≠ none) :
    sb.outermost p rs = some r := by
  obtain ⟨hsome,hnone⟩ := @foldl_closer p rs sb none (by rintro b ⟨⟩)
  cases hfold : sb.outermost p rs with
  | none => exact absurd ⟨h.holds,hheld⟩ ((hnone hfold).2 r h.mem)
  | some b =>
    obtain ⟨hmem,hb,-,hleast⟩ := hsome b hfold
    have hbelow := h.least b (hmem.resolve_left nofun) hb.1
    have habove := prefix_of_shorter h.holds hb.1 (hleast r h.mem ⟨h.holds,hheld⟩)
    rw [habove.eq_of_length_le hbelow.length_le]

theorem sandbox_outermost_none (h : ∀ r ∈ rs,¬Usable sb p r) : sb.outermost p rs = none := by
  obtain ⟨hsome,-⟩ := @foldl_closer p rs sb none (by rintro b ⟨⟩)
  cases hfold : sb.outermost p rs with
  | none => rfl
  | some b =>
    obtain ⟨hmem,hb,-⟩ := hsome b hfold
    exact absurd hb (h b (hmem.resolve_left nofun))

end OpenSteamgate.Dataset
