import OpenSteamgate.Enq.Server

namespace OpenSteamgate.Enq

variable {s : Session} {sid : Nat} {r : Request} {arg : String}

def Row.bare (w : Row) : Row := { w with dialog := [], update := [], dialogs := 0, updates := 0 }

theorem bare_eq_iff {v w : Row} : v.bare = w.bare ↔
    v.client = w.client ∧ v.table = w.table ∧ v.object = w.object ∧ v.arg = w.arg ∧
      v.mode = w.mode ∧ v.user = w.user ∧ v.taken = w.taken ∧ v.session = w.session := by
  simp [Row.bare]

theorem bare_session {v w : Row} (h : v.bare = w.bare) : v.session = w.session :=
  ((bare_eq_iff).mp h).2.2.2.2.2.2.2

def Row.tidy (w : Row) : Prop :=
  (0 < w.dialogs ∨ 0 < w.updates) ∧ (w.dialogs = 0 → w.dialog = []) ∧
    (w.updates = 0 → w.update = [])

theorem swept_of_tidy {w : Row} (h : w.tidy) : w.swept = some w := by
  obtain ⟨hl,hd,hu⟩ := h
  have h1 : (if w.dialogs = 0 then { w with dialog := [] } else w) = w := by
    split_ifs with h0
    · rw [← hd h0]
    · rfl
  have h2 : (if w.updates = 0 then { w with update := [] } else w) = w := by
    split_ifs with h0
    · rw [← hu h0]
    · rfl
  simp only [Row.swept,h1,h2,if_pos hl]

theorem swept_eq_some {v w : Row} (h : w.swept = some v) :
    v.tidy ∧ v.bare = w.bare ∧ v.dialogs = w.dialogs ∧ v.updates = w.updates ∧
      (0 < w.dialogs → v.dialog = w.dialog) ∧ (0 < w.updates → v.update = w.update) := by
  simp only [Row.swept] at h
  split_ifs at h <;> simp only [Option.some.injEq] at h <;> subst h <;>
    simp_all [Row.tidy,Row.bare]

theorem swept_eq_none {w : Row} (h : w.swept = none) : w.dialogs = 0 ∧ w.updates = 0 := by
  simp only [Row.swept] at h
  split_ifs at h <;> simp_all

@[simp] theorem take_bare (scope : Int) (w : Row) : (s.take scope w).bare = w.bare := by
  unfold Session.take
  split_ifs <;> rfl

@[simp] theorem releaseRow_bare (w : Row) : (s.releaseRow sid w).bare = w.bare := by
  unfold Session.releaseRow
  split_ifs <;> rfl

@[simp] theorem releaseUpdateRow_bare (owner : OwnerID) (w : Row) :
    (releaseUpdateRow sid owner w).bare = w.bare := by
  unfold releaseUpdateRow
  split_ifs <;> rfl

theorem scope_cases (r : Request) : scopeOf r = 1 ∨ scopeOf r = 2 ∨ scopeOf r = 3 := by
  unfold scopeOf
  split_ifs with h
  · rcases h with h | h <;> simp [h]
  · simp

def Session.refusal (s : Session) (sid : Nat) (r : Request) (arg : String) (w : Row) :
    Option Result :=
  if w.client ≠ r.client ∨ w.table ≠ r.table ∨ ¬collide w.arg arg then none
  else if (w.session ≠ sid ∨ 0 < w.updates ∧ w.update ≠ s.update) ∧
      (¬shared w.mode ∨ ¬shared r.mode) then some ⟨1,"601",w.user⟩
  else if s.owns w ∧ (w.mode = "X" ∨ r.mode = "X") then some ⟨1,"602",w.user⟩
  else none

def Session.merges (s : Session) (r : Request) (arg : String) (w : Row) : Prop :=
  s.holds r arg w ∧ (w.updates = 0 ∨ w.update = s.update)

instance (w : Row) : Decidable (s.merges r arg w) := inferInstanceAs (Decidable (_ ∧ _))

theorem collide_iff (a b : String) : collide a b ↔ ∀ i,a.toList.getD i ' ' = b.toList.getD i ' ' ∨
    a.toList.getD i ' ' = '\uffff' ∨ b.toList.getD i ' ' = '\uffff' := by
  simp only [collide,List.all_eq_true,List.mem_range]
  constructor
  · intro h i
    by_cases hi : i < max a.toList.length b.toList.length
    · have := h i hi
      simp only [Bool.not_eq_true',Bool.and_eq_false_iff,bne_eq_false_iff_eq] at this
      tauto
    · left
      have ha : a.toList[i]? = none := List.getElem?_eq_none (by omega)
      have hb : b.toList[i]? = none := List.getElem?_eq_none (by omega)
      simp only [List.getD_eq_getElem?_getD,ha,hb]
  · intro h i _
    simp only [Bool.not_eq_true',Bool.and_eq_false_iff,bne_eq_false_iff_eq]
    have := h i
    tauto

theorem collide_refl (a : String) : collide a a :=
  (collide_iff a a).mpr (fun _ => .inl rfl)

theorem collide_symm {a b : String} (h : collide a b) : collide b a := by
  rw [collide_iff] at h ⊢
  intro i
  rcases h i with h | h | h
  · exact .inl h.symm
  · exact .inr (.inr h)
  · exact .inr (.inl h)

theorem scan_cons (w : Row) (ws : List Row) (i : Nat) (same : Option Nat) :
    scan s sid r arg (w :: ws) i same =
      match s.refusal sid r arg w with
      | some e => .error e
      | none => scan s sid r arg ws (i + 1) (if s.merges r arg w then some i else same) := by
  have hc : w.arg = arg → collide w.arg arg := fun h => h ▸ collide_refl arg
  by_cases hm : s.merges r arg w
  · obtain ⟨⟨ho,hcl,ht,ha,hmode⟩,hu⟩ := id hm
    simp only [scan,Session.refusal,if_pos hm]
    split_ifs <;> simp_all
  · have hm' : s.owns w → w.client = r.client → w.table = r.table →
        ¬(w.arg = arg ∧ w.mode = r.mode ∧ (w.updates = 0 ∨ w.update = s.update)) :=
      fun ho hcl ht h => hm ⟨⟨ho,hcl,ht,h.1,h.2.1⟩,h.2.2⟩
    simp only [scan,Session.refusal,if_neg hm]
    split_ifs <;> simp_all

theorem scan_error {ws : List Row} {i : Nat} {same : Option Nat} {e : Result}
    (h : scan s sid r arg ws i same = .error e) :
    ∃ pre w post,ws = pre ++ w :: post ∧ s.refusal sid r arg w = some e ∧
      ∀ v ∈ pre,s.refusal sid r arg v = none := by
  induction ws generalizing i same with
  | nil => simp [scan] at h
  | cons w ws ih =>
    rw [scan_cons] at h
    cases hw : s.refusal sid r arg w with
    | some e' =>
      rw [hw] at h
      simp only [Except.error.injEq] at h
      exact ⟨[],w,ws,rfl,by rw [hw,h],by simp⟩
    | none =>
      rw [hw] at h
      obtain ⟨pre,v,post,rfl,hv,hpre⟩ := ih h
      refine ⟨w :: pre,v,post,rfl,hv,?_⟩
      simpa [hw] using hpre

theorem scan_ok {ws : List Row} {i : Nat} {same res : Option Nat}
    (h : scan s sid r arg ws i same = .ok res) :
    (∀ w ∈ ws,s.refusal sid r arg w = none) ∧ ((res = same ∧ ∀ w ∈ ws,¬s.merges r arg w) ∨
        ∃ pre w post,ws = pre ++ w :: post ∧ res = some (i + pre.length) ∧
          s.merges r arg w ∧ ∀ v ∈ post,¬s.merges r arg v) := by
  induction ws generalizing i same with
  | nil => simp_all [scan]
  | cons w ws ih =>
    rw [scan_cons] at h
    cases hw : s.refusal sid r arg w with
    | some e' => simp [hw] at h
    | none =>
      rw [hw] at h
      obtain ⟨hall,hres⟩ := ih h
      refine ⟨by simpa [hw] using hall,?_⟩
      rcases hres with ⟨rfl,hno⟩ | ⟨pre,v,post,rfl,hres,hv,hpost⟩
      · by_cases hm : s.merges r arg w
        · right
          exact ⟨[],w,ws,rfl,by simp [hm],hm,hno⟩
        · left
          simpa [hm] using hno
      · right
        refine ⟨w :: pre,v,post,rfl,?_,hv,hpost⟩
        rw [hres,List.length_cons]
        congr 1
        omega

theorem modify_split {α : Type} (pre : List α) (w : α) (post : List α) (f : α → α) :
    (pre ++ w :: post).modify pre.length f = pre ++ f w :: post := by
  induction pre with
  | nil => rfl
  | cons v pre ih => simpa using ih

inductive Enqueued (st : State) (sid : Nat) (r : Request) (now : Time) : State → Result → Prop
  | unknown : st.sessions.lookup sid = none → Enqueued st sid r now st ⟨2,"",""⟩
  | refused (s : Session) (pre : List Row) (w : Row) (post : List Row) (e : Result) :
      st.sessions.lookup sid = some s → st.rows = pre ++ w :: post →
      s.refusal sid r (garg r.client r.fields) w = some e →
      (∀ v ∈ pre, s.refusal sid r (garg r.client r.fields) v = none) →
      Enqueued st sid r now st e
  | fresh (s : Session) : st.sessions.lookup sid = some s →
      (∀ w ∈ st.rows, s.refusal sid r (garg r.client r.fields) w = none) →
      (∀ w ∈ st.rows, ¬s.merges r (garg r.client r.fields) w) →
      Enqueued st sid r now { st with rows := st.rows ++
        [s.take (scopeOf r) (s.newRow sid r (garg r.client r.fields) now)] } {}
  | merged (s : Session) (pre : List Row) (w : Row) (post : List Row) :
      st.sessions.lookup sid = some s → st.rows = pre ++ w :: post →
      (∀ v ∈ st.rows, s.refusal sid r (garg r.client r.fields) v = none) →
      s.merges r (garg r.client r.fields) w →
      (∀ v ∈ post, ¬s.merges r (garg r.client r.fields) v) →
      Enqueued st sid r now { st with rows := pre ++ s.take (scopeOf r) w :: post } {}

theorem enqueue_cases (st : State) (sid : Nat) (r : Request) (now : Time) :
    Enqueued st sid r now (st.enqueue sid r now).1 (st.enqueue sid r now).2 := by
  unfold State.enqueue
  cases hs : st.sessions.lookup sid with
  | none => exact .unknown hs
  | some s =>
    cases hscan : scan s sid r (garg r.client r.fields) st.rows 0 none with
    | error e =>
      obtain ⟨pre,w,post,hrows,hw,hpre⟩ := scan_error hscan
      simpa only [hscan] using Enqueued.refused s pre w post e hs hrows hw hpre
    | ok res =>
      obtain ⟨hall,⟨rfl,hno⟩ | ⟨pre,w,post,hrows,rfl,hm,hpost⟩⟩ := scan_ok hscan
      · simpa only [hscan] using Enqueued.fresh s hs hall hno
      · have hmod := modify_split pre w post (s.take (scopeOf r))
        rw [← hrows,← Nat.zero_add pre.length] at hmod
        simpa only [hscan,hmod] using
          Enqueued.merged s pre w post hs hrows hall hm hpost

theorem dequeueRows_cases (s : Session) (r : Request) (arg : String) (ws : List Row) :
    (dequeueRows s r arg ws = ws ∧ ∀ w ∈ ws,¬(s.holds r arg w ∧ (s.drop (scopeOf r) w).2 = true)) ∨
      ∃ pre w post,ws = pre ++ w :: post ∧ s.holds r arg w ∧ (s.drop (scopeOf r) w).2 = true ∧
        (∀ v ∈ pre,¬(s.holds r arg v ∧ (s.drop (scopeOf r) v).2 = true)) ∧
        dequeueRows s r arg ws = pre ++ (s.drop (scopeOf r) w).1 :: post := by
  induction ws with
  | nil => left; simp [dequeueRows]
  | cons w ws ih =>
    by_cases hrel : s.holds r arg w ∧ (s.drop (scopeOf r) w).2 = true
    · right
      exact ⟨[],w,ws,rfl,hrel.1,hrel.2,by simp,by simp [dequeueRows,hrel.1,hrel.2]⟩
    · have hkeep : dequeueRows s r arg (w :: ws) = w :: dequeueRows s r arg ws := by
        simp only [dequeueRows]
        split_ifs with h1 h2
        · exact (hrel ⟨h1,h2⟩).elim
        · congr 1
          simp only [Session.drop,decide_eq_true_eq,not_or] at h2 ⊢
          rw [if_neg h2.1,if_neg h2.2]
        · rfl
      rcases ih with ⟨heq,hno⟩ | ⟨pre,v,post,rfl,hh,hd,hpre,heq⟩
      · left
        refine ⟨by rw [hkeep,heq],?_⟩
        simpa only [List.forall_mem_cons] using ⟨hrel,hno⟩
      · right
        refine ⟨w :: pre,v,post,rfl,hh,hd,?_,by rw [hkeep,heq,List.cons_append]⟩
        simpa only [List.forall_mem_cons] using ⟨hrel,hpre⟩

end OpenSteamgate.Enq
