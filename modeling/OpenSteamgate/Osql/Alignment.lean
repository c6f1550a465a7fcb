import OpenSteamgate.Osql.Scanning

namespace OpenSteamgate.Osql

variable {casing : Casing} {dialect : Dialect} {ps qs : List Piece} {params params' : List Param}
  {s u v rest : Text}

theorem stops_cons {c : Char} : Stops (c :: s) ↔ c ≠ '"' ∧ c ≠ '\'' ∧ Lexeme.isDigit c.toNat = false :=
  ⟨fun h => h c rfl,fun h _ hc => Option.some.inj hc ▸ h⟩

instance : (s : Text) → Decidable (Stops s)
  | [] => isTrue (by simp [Stops])
  | _ :: _ => decidable_of_iff _ (stops_cons).symm

def StopsAt : List Piece → Prop
  | [] => True
  | .text s :: _ => s ≠ [] ∧ Stops s
  | _ => False

def Apart : List Piece → Prop
  | [] => True
  | .text s :: ps => Plain s ∧ Apart ps
  | _ :: ps => StopsAt ps ∧ Apart ps

theorem StopsAt.append (h : StopsAt ps) (h' : StopsAt qs) : StopsAt (ps ++ qs) := by
  cases ps with
  | nil => exact h'
  | cons p ps =>
    cases p with
    | text s => exact h
    | ident name => exact h.elim
    | hole node => exact h.elim
    | empty => exact h.elim

namespace Apart

theorem append (h : Apart ps) (hstop : StopsAt qs) (h' : Apart qs) : Apart (ps ++ qs) := by
  induction ps with
  | nil => exact h'
  | cons p ps ih =>
    cases p with
    | text s => exact ⟨h.1,ih h.2⟩
    | ident name => exact ⟨h.1.append hstop,ih h.2⟩
    | hole node => exact ⟨h.1.append hstop,ih h.2⟩
    | empty => exact ⟨h.1.append hstop,ih h.2⟩

theorem words (h : Apart ps) (hu : Plain u ∧ u ≠ [] ∧ Stops u) (h' : Apart qs) :
    Apart (ps ++ .text u :: qs) :=
  h.append hu.2 ⟨hu.1,h'⟩

theorem between (hu : Plain u) (h : Apart ps) (hv : Plain v ∧ v ≠ [] ∧ Stops v) :
    Apart (.text u :: ps ++ [.text v]) :=
  ⟨hu,h.words hv trivial⟩

theorem separated {sep : Text} (hsep : Plain sep ∧ sep ≠ [] ∧ Stops sep) {pss : List (List Piece)}
    (h : ∀ ps ∈ pss,Apart ps) : Apart (separated sep pss) := by
  fun_induction Osql.separated sep pss with
  | case1 => trivial
  | case2 ps => exact h ps (List.mem_singleton.mpr rfl)
  | case3 ps qs rest ih =>
    obtain ⟨hps,hrest⟩ := List.forall_mem_cons.mp h
    exact hps.words hsep (ih hrest)

end Apart

def marks (dialect : Dialect) : Nat → List Piece → List Mark
  | _,[] => []
  | n,.text _ :: ps => marks dialect n ps
  | n,.ident name :: ps => .ident name :: marks dialect n ps
  | n,.hole _ :: ps => .hole (dialect.number (n + 1)) :: marks dialect (n + 1) ps
  | n,.empty :: ps => .string [] :: marks dialect n ps

def bounds : Nat → List Piece → List Param
  | _,[] => []
  | n,.hole node :: ps => node.bound n :: bounds (n + 1) ps
  | n,_ :: ps => bounds n ps

theorem renders_bounds (h : Renders casing dialect ps params s params') :
    params' = params ++ bounds params.length ps := by
  induction ps generalizing params s with
  | nil =>
    cases h
    exact (List.append_nil _).symm
  | cons p ps ih =>
    obtain ⟨⟨t,params₁⟩,hp,hrest⟩ := bind_eq_ok h
    obtain ⟨⟨u,params₂⟩,hps,hret⟩ := bind_eq_ok hrest
    cases hret
    rw [ih hps]
    cases p with
    | text s =>
      cases hp
      rfl
    | ident name =>
      cases hp
      rfl
    | hole node =>
      obtain ⟨sql,hsql,hret⟩ := bind_eq_ok hp
      cases hret
      rw [bounds,List.length_append,List.append_assoc]
      rfl
    | empty =>
      cases hp
      rfl

theorem stops_renders (hstop : StopsAt ps) (h : Renders casing dialect ps params s params')
    (hrest : Stops rest) : Stops (s ++ rest) := by
  cases ps with
  | nil =>
    cases h
    exact hrest
  | cons p ps =>
    cases p with
    | text t =>
      obtain ⟨⟨t',params₁⟩,hp,hmore⟩ := bind_eq_ok h
      obtain ⟨⟨u,params₂⟩,hps,hret⟩ := bind_eq_ok hmore
      cases hp
      cases hret
      obtain ⟨hne,ht⟩ := hstop
      cases t with
      | nil => exact absurd rfl hne
      | cons c t => exact (stops_cons).mpr ((stops_cons).mp ht)
    | ident name => exact hstop.elim
    | hole node => exact hstop.elim
    | empty => exact hstop.elim

theorem scan_renders (ha : Apart ps) (h : Renders casing dialect ps params s params')
    (hrest : Stops rest) :
    scan (s ++ rest) = marks dialect params.length ps ++ scan rest := by
  induction ps generalizing params s with
  | nil =>
    cases h
    rfl
  | cons p ps ih =>
    obtain ⟨⟨t,params₁⟩,hp,hmore⟩ := bind_eq_ok h
    obtain ⟨⟨u,params₂⟩,hps,hret⟩ := bind_eq_ok hmore
    cases hret
    rw [List.append_assoc]
    cases p with
    | text t =>
      cases hp
      rw [scan_plain ha.1]
      exact ih ha.2 hps
    | ident name =>
      cases hp
      rw [scan_quote (stops_renders ha.1 hps hrest),ih ha.2 hps]
      rfl
    | hole node =>
      obtain ⟨sql,hsql,hret⟩ := bind_eq_ok hp
      cases hret
      rw [scan_placeholder hsql (stops_renders ha.1 hps hrest),ih ha.2 hps,List.length_append]
      rfl
    | empty =>
      cases hp
      have hscan := scan_empty (stops_renders ha.1 hps hrest)
      exact hscan.trans (congrArg (.string [] :: ·) (ih ha.2 hps))

section trees

theorem plain_format {bits : BitVec 64} : Plain (Binary64.format bits) := by
  refine List.all_eq_true.mpr fun c hc => ?_
  rcases Binary64.mem_format hc with hdigit | hmem
  · exact plainChar_digit hdigit
  · have hall : ∀ c ∈ ".-+InfNa".toList,plainChar c = true := by simp [plainChar]
    exact hall c hmem

theorem plain_jsNumber {w : Value Text} (h : jsNumber w = some s) : Plain s := by
  unfold jsNumber at h
  split at h
  · cases h
    exact plain_digits (isDigit_toDigits _)
  · cases h
    exact plain_cons.mpr ⟨rfl,plain_digits (isDigit_toDigits _)⟩
  · cases h
    exact plain_format
  · cases h

theorem apart_bin {op : Op} {type : IRType} (h : Apart ps) (h' : Apart qs) :
    Apart (binPieces op type ps qs) := by
  have hall {a b c : Text} (ha : Plain a) (hb : Plain b ∧ b ≠ [] ∧ Stops b)
      (hc : Plain c ∧ c ≠ [] ∧ Stops c) :
      Apart (.text a :: ps ++ .text b :: qs ++ [.text c]) := by
    rw [List.append_assoc]
    exact ⟨ha,h.words hb (h'.words hc trivial)⟩
  unfold binPieces
  split
  · split
    · exact hall (by decide) (by decide) (by decide)
    · exact hall (by decide) (by decide) (by decide)
  · refine hall (by decide) ?_ (by decide)
    cases op <;> decide

theorem apart_like {es : Option (List Piece)} {neg : Bool} (h : Apart ps) (h' : Apart qs)
    (hes : ∀ e ∈ es,Apart e) : Apart (likePieces dialect ps qs es neg) := by
  have hword : ∀ neg : Bool, let w := (if neg then " NOT".toList else []) ++ " LIKE ".toList
      Plain w ∧ w ≠ [] ∧ Stops w := by decide
  unfold likePieces
  rw [List.append_assoc,List.append_assoc]
  refine ⟨by decide,h.words (hword neg) ?_⟩
  cases es with
  | none =>
    dsimp only
    split
    · exact h'.append ⟨by decide,by decide⟩ ⟨by decide,⟨by decide,by decide⟩,by decide,trivial⟩
    · exact h'.words (by decide) trivial
  | some e => exact h'.words (by decide) ((hes e rfl).words (by decide) trivial)

mutual

theorem apart_pieces (e : GoIR) : Apart (piecesOf dialect e) := by
  cases e with
  | col name source type =>
    cases source with
    | none => exact ⟨trivial,trivial⟩
    | some source =>
      have hdot : StopsAt [.text ['.'],.ident name] := ⟨by decide,by decide⟩
      exact ⟨hdot,by decide,trivial,trivial⟩
  | lit value type =>
    rw [piecesOf]
    split
    · next hn => exact ⟨plain_jsNumber hn,trivial⟩
    · exact ⟨trivial,trivial⟩
  | param name value type isNull => exact ⟨trivial,trivial⟩
  | bin op left right type => exact apart_bin (apart_pieces left) (apart_pieces right)
  | isnull expr => exact (apart_pieces expr).between (by decide) (by decide)
  | not expr => exact (apart_pieces expr).between (by decide) (by decide)
  | like expr pattern escape negated =>
    exact apart_like (apart_pieces expr) (apart_pieces pattern) (apart_optionPieces escape)
  | inList expr list negated =>
    have hword : ∀ neg : Bool, let w := (if neg then " NOT".toList else []) ++ " IN (".toList
        Plain w ∧ w ≠ [] ∧ Stops w := by decide
    have hlist : Apart (separated ", ".toList (listPieces dialect list)) :=
      .separated (by decide) (apart_listPieces list)
    rw [piecesOf,List.append_assoc]
    exact ⟨by decide,(apart_pieces expr).words (hword negated) (hlist.words (by decide) trivial)⟩

theorem apart_optionPieces (e : Option GoIR) : ∀ ps ∈ optionPieces dialect e,Apart ps := by
  cases e with
  | none => exact fun _ h => by cases h
  | some e =>
    intro ps h
    obtain rfl := Option.some.inj h
    exact apart_pieces e

theorem apart_listPieces (es : List GoIR) : ∀ ps ∈ listPieces dialect es,Apart ps := by
  cases es with
  | nil => exact fun _ h => by cases h
  | cons e es => exact List.forall_mem_cons.mpr ⟨apart_pieces e,apart_listPieces es⟩

end

end trees

end OpenSteamgate.Osql
