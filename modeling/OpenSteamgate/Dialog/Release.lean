import OpenSteamgate.Dialog.WorkProcess

namespace OpenSteamgate.Dialog

variable {T W : Type} [DecidableEq T] {dialog : T → Bool} {s s' : Host T W} {t u : T} {p : Phase}
  {a : Action T W} {as : List (Action T W)} {next : Then} {e : Ending}

omit [DecidableEq T] in
theorem line_active (h : Enabled dialog s a) (hline : a.isLine = true) :
    (s.phase a.step).active = true := by
  cases a with
  | arrive | granted | rollInRaised | wake => exact absurd hline Bool.false_ne_true
  | started | ask | answer | returned | raised => exact active_of h rfl
  | write => exact active_either h
  | register => exact active_either h.2
  | commitWork | rollbackWork | committed | rolledBack | closed => exact active_of h.1 rfl
  | wait => exact active_either h.1

theorem commit_history (hne : u ≠ t) : (s.commit t e).history u = s.history u := by
  unfold Host.commit
  dsimp only
  split
  · exact Function.update_of_ne hne ..
  · rfl

theorem rollback_history (hne : u ≠ t) : (s.rollback t e).history u = s.history u := by
  unfold Host.rollback
  dsimp only
  split
  · exact Function.update_of_ne hne ..
  · rfl

theorem commit_noted (h : e.succeeds = true) :
    (s.commit t e).history t = s.history t ++ [.commit] := by
  unfold Host.commit
  dsimp only
  rw [if_pos h]
  exact Function.update_self ..

theorem act_others (hne : u ≠ a.step) : (s.act dialog a).phase u = s.phase u ∧
    (s.act dialog a).history u = s.history u := by
  cases a with
  | granted t =>
    rw [Host.act]
    split
    · exact ⟨Function.update_of_ne hne ..,rfl⟩
    · exact ⟨rfl,rfl⟩
  | arrive | rollInRaised | started | ask | answer | wake | returned | raised =>
    exact ⟨Function.update_of_ne hne ..,rfl⟩
  | write t w => exact ⟨rfl,Function.update_of_ne hne ..⟩
  | register => exact ⟨rfl,rfl⟩
  | commitWork t e => exact ⟨congrFun commit_phase u,commit_history hne⟩
  | rollbackWork t e => exact ⟨congrFun rollback_phase u,rollback_history hne⟩
  | wait t e =>
    rw [Host.act]
    split
    · exact ⟨(Function.update_of_ne hne ..).trans (congrFun commit_phase u),commit_history hne⟩
    · exact ⟨(Function.update_of_ne hne ..).trans (congrFun commit_phase u),commit_history hne⟩
  | committed t e =>
    exact ⟨(Function.update_of_ne hne ..).trans (congrFun commit_phase u),commit_history hne⟩
  | rolledBack t e =>
    exact ⟨(Function.update_of_ne hne ..).trans (congrFun rollback_phase u),rollback_history hne⟩
  | closed t e =>
    rw [Host.act]
    split
    · exact ⟨Function.update_of_ne hne ..,rfl⟩
    · exact ⟨Function.update_of_ne hne ..,rfl⟩

section sleeping

def Phase.sleeps : Phase → Bool
  | .sleeping _ => true
  | _ => false

theorem falls_asleep (h : Enabled dialog s a) (hsleeps : ((s.act dialog a).phase a.step).sleeps = true) :
    ((s.act dialog a).history a.step).getLast? = some .commit := by
  have hself : ∀ {x : Host T W} {t : T} {p : Phase},x.phase t = p → p.sleeps = false →
      (x.phase t).sleeps = true → False := by
    intro x t p hp hno hyes
    rw [hp,hno] at hyes
    exact Bool.false_ne_true hyes
  have hkept : ∀ {t : T} {x : Host T W},x.phase = s.phase → s.phase t = .working ∨ s.phase t = .asking →
      (x.phase t).sleeps = true → False := by
    intro t x hphase hp hyes
    rw [hphase] at hyes
    rcases hp with hp | hp
    · exact Bool.false_ne_true ((congrArg Phase.sleeps hp).symm.trans hyes)
    · exact Bool.false_ne_true ((congrArg Phase.sleeps hp).symm.trans hyes)
  cases a with
  | granted t =>
    obtain ⟨next,hqueued,-⟩ := h
    rw [Host.act,hqueued] at hsleeps
    refine (hself (Function.update_self ..) ?_ hsleeps).elim
    cases next <;> rfl
  | arrive t => exact (hself (Function.update_self t (.queued .start) s.phase) rfl hsleeps).elim
  | rollInRaised t => exact (hself (Function.update_self t .working s.phase) rfl hsleeps).elim
  | started t raised =>
    cases raised with
    | true => exact (hself (Function.update_self t .closing s.phase) rfl hsleeps).elim
    | false => exact (hself (Function.update_self t .working s.phase) rfl hsleeps).elim
  | write t w => exact (hkept rfl h hsleeps).elim
  | register t => exact (hkept rfl h.2 hsleeps).elim
  | commitWork t e => exact (hkept commit_phase (.inl h.1) hsleeps).elim
  | rollbackWork t e => exact (hkept rollback_phase (.inl h.1) hsleeps).elim
  | ask t => exact (hself (Function.update_self t .asking s.phase) rfl hsleeps).elim
  | answer t => exact (hself (Function.update_self t .working s.phase) rfl hsleeps).elim
  | wake t again => exact (hself (Function.update_self t (.queued _) s.phase) rfl hsleeps).elim
  | returned t =>
    rw [Host.act] at hsleeps
    cases hdialog : dialog t with
    | true =>
      rw [hdialog] at hsleeps
      exact (hself (Function.update_self t .committing s.phase) rfl hsleeps).elim
    | false =>
      rw [hdialog] at hsleeps
      exact (hself (Function.update_self t .closing s.phase) rfl hsleeps).elim
  | raised t =>
    rw [Host.act] at hsleeps
    cases hdialog : dialog t with
    | true =>
      rw [hdialog] at hsleeps
      exact (hself (Function.update_self t .rolling s.phase) rfl hsleeps).elim
    | false =>
      rw [hdialog] at hsleeps
      exact (hself (Function.update_self t .closing s.phase) rfl hsleeps).elim
  | wait t e =>
    rw [Host.act] at hsleeps ⊢
    cases hreturns : e.returns with
    | true =>
      have hsucceeds : e.succeeds = true := (Bool.and_eq_true_iff.mp hreturns).1
      rw [if_pos rfl]
      change ((s.commit t e).history t).getLast? = _
      rw [commit_noted hsucceeds,List.getLast?_concat]
    | false =>
      rw [hreturns,if_neg Bool.false_ne_true] at hsleeps
      exact (hself (p := .working) (Function.update_self ..) rfl hsleeps).elim
  | committed t e =>
    rw [Host.act] at hsleeps
    cases hreturns : e.returns with
    | true =>
      rw [hreturns] at hsleeps
      exact (hself (p := .closing) (Function.update_self ..) rfl hsleeps).elim
    | false =>
      rw [hreturns] at hsleeps
      exact (hself (p := .rolling) (Function.update_self ..) rfl hsleeps).elim
  | rolledBack t e => exact (hself (p := .closing) (Function.update_self ..) rfl hsleeps).elim
  | closed t e =>
    rw [Host.act] at hsleeps
    cases hraised : e.raised with
    | true =>
      rw [hraised] at hsleeps
      exact (hself (p := .finished) (Function.update_self ..) rfl hsleeps).elim
    | false =>
      rw [hraised,if_neg Bool.false_ne_true] at hsleeps
      exact (hself (p := .finished) (Function.update_self ..) rfl hsleeps).elim

theorem sleeper_committed (hrun : Run dialog {} as s) (t : T) (h : (s.phase t).sleeps = true) :
    (s.history t).getLast? = some .commit := by
  induction hrun with
  | nil => exact absurd h Bool.false_ne_true
  | @snoc _ as a _ henabled ih =>
    by_cases hstep : t = a.step
    · subst hstep
      exact falls_asleep henabled h
    · rw [(act_others hstep).1] at h
      rw [(act_others hstep).2]
      exact ih h

end sleeping

section endings

def Phase.rank : Phase → Nat
  | .committing => 3
  | .rolling => 2
  | .closing => 1
  | _ => 0

theorem Ending.fits_none (n : Nat) : ({} : Ending).fits n := fun _ => ⟨rfl,rfl⟩

omit [DecidableEq T] in
theorem ending_enabled (h : 0 < (s.phase t).rank) : ∃ a : Action T W,a.step = t ∧ Enabled dialog s a := by
  cases hp : s.phase t with
  | committing => exact ⟨.committed t {},rfl,hp,Ending.fits_none _⟩
  | rolling => exact ⟨.rolledBack t {},rfl,hp,Ending.fits_none _⟩
  | closing => exact ⟨.closed t {},rfl,hp,Ending.fits_none _⟩
  | absent | queued | starting | working | asking | sleeping | finished =>
    rw [hp] at h
    exact absurd h (Nat.lt_irrefl 0)

theorem ending_falls (hrank : 0 < (s.phase a.step).rank) (h : Enabled dialog s a) :
    ((s.act dialog a).phase a.step).rank < (s.phase a.step).rank := by
  have hno : ∀ {t : T} {p : Phase},s.phase t = p → p.rank = 0 → 0 < (s.phase t).rank → False := by
    intro t p hp hzero hpos
    rw [hp,hzero] at hpos
    exact Nat.lt_irrefl 0 hpos
  have hnone : ∀ {t : T},s.phase t = .working ∨ s.phase t = .asking → 0 < (s.phase t).rank → False := by
    intro t hp hpos
    rcases hp with hp | hp
    · exact hno hp rfl hpos
    · exact hno hp rfl hpos
  cases a with
  | arrive | started | ask | answer | returned | raised => exact (hno h rfl hrank).elim
  | granted t => exact (hno h.choose_spec.1 rfl hrank).elim
  | rollInRaised | commitWork | rollbackWork => exact (hno h.1 rfl hrank).elim
  | write => exact (hnone h hrank).elim
  | register => exact (hnone h.2 hrank).elim
  | wait => exact (hnone h.1 hrank).elim
  | wake => exact (hno h.choose_spec.1 rfl hrank).elim
  | committed t e =>
    have hp : s.phase t = .committing := h.1
    have hlater : ((s.act dialog (.committed t e)).phase t) = if e.returns then .closing else .rolling :=
      Function.update_self ..
    change ((s.act dialog (.committed t e)).phase t).rank < (s.phase t).rank
    rw [hp,hlater]
    cases e.returns <;> decide
  | rolledBack t e =>
    have hp : s.phase t = .rolling := h.1
    have hlater : (s.act dialog (.rolledBack t e)).phase t = .closing := Function.update_self ..
    change ((s.act dialog (.rolledBack t e)).phase t).rank < (s.phase t).rank
    rw [hp,hlater]
    decide
  | closed t e =>
    have hp : s.phase t = .closing := h.1
    have hlater : (s.act dialog (.closed t e)).phase t = .finished := by
      rw [Host.act]
      split
      · exact Function.update_self ..
      · exact Function.update_self ..
    change ((s.act dialog (.closed t e)).phase t).rank < (s.phase t).rank
    rw [hp,hlater]
    decide

end endings

def Given (s : Host T W) : Prop := ∀ t,s.lock.holder = some t → s.phase t ≠ .finished

theorem given_act (hs : Held s) (hgiven : Given s) (h : Enabled dialog s a) (hclean : a.clean = true) :
    Given (s.act dialog a) := by
  intro u hholder hfinished
  obtain ⟨hmoves,hreleases⟩ := act_moves h
  cases hactive : (s.phase u).active with
  | true =>
    rw [hreleases hclean u hactive hfinished] at hholder
    cases hwaiting : s.lock.waiting with
    | nil =>
      rw [Turnstile.release_last hwaiting] at hholder
      cases hholder
    | cons v rest =>
      rw [Turnstile.release_next hwaiting] at hholder
      obtain rfl := Option.some.inj hholder
      obtain ⟨-,next,hqueued⟩ := hs.waits v (hwaiting ▸ List.mem_cons_self ..)
      exact queued_inactive hactive hqueued
  | false =>
    have hother : ∀ {t : T} {p : Phase},(s.act dialog a).phase = Function.update s.phase t p →
        u ≠ t → s.phase u = .finished := by
      intro t p hphase hne
      rwa [hphase,Function.update_of_ne hne] at hfinished
    cases hmoves with
    | stays t p hp ht hlock hphase =>
      rw [hlock] at hholder
      have hne : u ≠ t := by
        rintro rfl
        rw [hphase,Function.update_self] at hfinished
        rw [hfinished] at hp
        exact Bool.false_ne_true hp
      exact hgiven u hholder (hother hphase hne)
    | acquires t next hinactive hqueued hnot hlock hphase =>
      have hne : u ≠ t := by
        rintro rfl
        rw [hphase,Function.update_self] at hfinished
        cases hfinished
      have hover := hother hphase hne
      rw [hlock] at hholder
      cases hl : s.lock.holder with
      | none =>
        rw [Turnstile.acquire_free hl] at hholder
        exact hne (Option.some.inj hholder).symm
      | some v =>
        rw [Turnstile.acquire_held hl] at hholder
        exact hgiven u hholder hover
    | releases t p ht hp hlock hphase =>
      have hne : u ≠ t := by
        rintro rfl
        exact Bool.false_ne_true (hactive.symm.trans ht)
      have hover := hother hphase hne
      rw [hlock] at hholder
      cases hwaiting : s.lock.waiting with
      | nil =>
        rw [Turnstile.release_last hwaiting] at hholder
        cases hholder
      | cons v rest =>
        rw [Turnstile.release_next hwaiting] at hholder
        obtain rfl := Option.some.inj hholder
        obtain ⟨-,next,hqueued⟩ := hs.waits v (hwaiting ▸ List.mem_cons_self ..)
        rw [hover] at hqueued
        cases hqueued
    | leaks t ht hlock hphase =>
      have hne : u ≠ t := by
        rintro rfl
        exact Bool.false_ne_true (hactive.symm.trans ht)
      rw [hlock] at hholder
      exact hgiven u hholder (hother hphase hne)

theorem run_given (hrun : Run dialog {} as s) (hclean : ∀ a ∈ as,a.clean = true) : Given s := by
  induction hrun with
  | nil => exact fun _ h => by cases h
  | snoc hrun henabled ih =>
    refine given_act (run_held hrun) (ih fun a ha => hclean a (List.mem_append_left _ ha)) henabled ?_
    exact hclean _ (List.mem_append_right _ (List.mem_singleton_self _))

theorem one_work_process (hrun : Run dialog ({} : Host T W) as s) (hclean : ∀ a ∈ as,a.clean = true) :
    (∀ t,(s.phase t).active = true → s.lock.holder = some t) ∧
    (∀ t u,(s.phase t).active = true → (s.phase u).active = true → t = u) ∧
    s.lock.granted ++ s.lock.waiting = s.lock.acquired ∧
    s.lock.granted = s.lock.released ++ s.lock.holder.toList ∧
    ((∀ t,(s.phase t).active = false ∧ (s.phase t).sleeps = false ∧ ∀ next,s.phase t ≠ .queued next) →
      s.lock.holder = none) ∧
    (∀ t,(s.phase t).sleeps = true → s.lock.holder ≠ some t ∧ (s.history t).getLast? = some .commit) ∧
    (∀ a,Enabled dialog s a → a.isLine = true → s.lock.holder = some a.step) ∧
    (∀ t,s.phase t = .finished → s.lock.holder ≠ some t) ∧
    ∀ t,0 < (s.phase t).rank → (∃ a : Action T W,a.step = t ∧ Enabled dialog s a) ∧
      (∀ a,Enabled dialog s a → a.step = t → ((s.act dialog a).phase t).rank < (s.phase t).rank) ∧
      ∀ a : Action T W,t ≠ a.step → (s.act dialog a).phase t = s.phase t := by
  have hs := run_held hrun
  have hgiven := run_given hrun hclean
  refine ⟨hs.active,fun t u ht hu => ?_,hs.fair.order,hs.fair.matched,fun hidle => ?_,fun t ht => ?_,
    fun a ha hline => hs.active _ (line_active ha hline),fun t ht hholder => hgiven t hholder ht,
    fun t hrank => ⟨ending_enabled hrank,?_,fun a hne => (act_others hne).1⟩⟩
  · exact Option.some.inj ((hs.active t ht).symm.trans (hs.active u hu))
  · cases hholder : s.lock.holder with
    | none => rfl
    | some t =>
      obtain ⟨hactive,-,hqueued⟩ := hidle t
      rcases hs.holds t hholder with h | ⟨next,h⟩ | h
      · exact absurd (hactive.symm.trans h) Bool.false_ne_true
      · exact absurd h (hqueued next)
      · exact absurd h (hgiven t hholder)
  · refine ⟨fun hholder => ?_,sleeper_committed hrun t ht⟩
    rcases hs.holds t hholder with h | ⟨next,h⟩ | h
    · cases hp : s.phase t <;> rw [hp] at h ht <;> first | exact Bool.false_ne_true h | exact Bool.false_ne_true ht
    · rw [h] at ht
      exact Bool.false_ne_true ht
    · exact hgiven t hholder h
  · rintro a ha rfl
    exact ending_falls hrank ha

theorem held_for_ever : ∃ (as : List (Action Unit Unit)) (s : Host Unit Unit),
    Run (fun _ => true) {} as s ∧ (∀ t,(s.phase t).active = false ∧ (s.phase t).sleeps = false ∧
      ∀ next,s.phase t ≠ .queued next) ∧ s.phase () = .finished ∧ s.lock.holder = some () ∧
    s.lock.granted = [()] ∧ s.lock.released = [] := by
  have h0 : Run (fun _ => true) ({} : Host Unit Unit) [] {} := .nil _
  have h1 := h0.snoc (a := .arrive ()) rfl
  have h2 := h1.snoc (a := .granted ()) ⟨.start,rfl,rfl⟩
  have h3 := h2.snoc (a := .started () false) rfl
  have h4 := h3.snoc (a := .register ()) ⟨rfl,.inl rfl⟩
  have h5 := h4.snoc (a := .raised ()) rfl
  have h6 := h5.snoc (a := .rolledBack () ⟨true,1,true⟩) ⟨rfl,by rintro ⟨⟩⟩
  have h7 := h6.snoc (a := .closed () ⟨true,0,true⟩) ⟨rfl,by rintro ⟨⟩⟩
  refine ⟨_,_,h7,fun t => ⟨rfl,rfl,?_⟩,rfl,rfl,rfl,rfl⟩
  rintro _ ⟨⟩

def competing : List (Action Bool Nat) :=
  [.arrive false,.arrive true,.granted false,.started false false,.write false 1,.wait false {},
    .granted true,.started true false,.wake false false,.write true 5]

theorem competing_run : Run (fun _ => true) {} competing
    (competing.foldl (fun s a => s.act (fun _ => true) a) ({} : Host Bool Nat)) := by
  have h0 : Run (fun _ => true) ({} : Host Bool Nat) [] {} := .nil _
  have h1 := h0.snoc (a := .arrive false) rfl
  have h2 := h1.snoc (a := .arrive true) rfl
  have h3 := h2.snoc (a := .granted false) ⟨.start,rfl,rfl⟩
  have h4 := h3.snoc (a := .started false false) rfl
  have h5 := h4.snoc (a := .write false 1) (.inl rfl)
  have h6 := h5.snoc (a := .wait false {}) ⟨.inl rfl,Ending.fits_none _⟩
  have h7 := h6.snoc (a := .granted true) ⟨.start,rfl,rfl⟩
  have h8 := h7.snoc (a := .started true false) rfl
  have h9 := h8.snoc (a := .wake false false) ⟨false,rfl,by rintro ⟨⟩⟩
  exact h9.snoc (a := .write true 5) (.inl rfl)

theorem two_steps_released : ∃ (as : List (Action Bool Nat)) (s : Host Bool Nat),
    Run (fun _ => true) {} as s ∧ s.phase false = .finished ∧ (s.phase true).active = true ∧
    s.lock.holder = some true ∧ s.lock.granted = s.lock.released ++ [true] ∧
    s.committed = [(false,1),(true,5)] := by
  have h11 := competing_run.snoc (a := .wait true {}) ⟨.inl rfl,Ending.fits_none _⟩
  have h12 := h11.snoc (a := .granted false) ⟨.behind,rfl,rfl⟩
  have h13 := h12.snoc (a := .wake true false) ⟨false,rfl,by rintro ⟨⟩⟩
  have h14 := h13.snoc (a := .returned false) rfl
  have h15 := h14.snoc (a := .committed false {}) ⟨rfl,Ending.fits_none _⟩
  have h16 := h15.snoc (a := .closed false {}) ⟨rfl,Ending.fits_none _⟩
  have h17 := h16.snoc (a := .granted true) ⟨.behind,rfl,rfl⟩
  have hclean : ∀ a ∈ competing ++ [.wait true {},.granted false,.wake true false,.returned false,
      .committed false {},.closed false {},.granted true],a.clean = true := List.all_eq_true.mp rfl
  obtain ⟨hactive,-,-,hmatched,-⟩ := one_work_process h17 hclean
  have hholder := hactive true rfl
  rw [hholder] at hmatched
  exact ⟨_,_,h17,rfl,rfl,hholder,hmatched,rfl⟩

end OpenSteamgate.Dialog
