import Keyring.Proofs.Json.Grammar

/-! Records that are read from objects. An object is read member by member: what follows a member does not matter to it,
and the whole object is read where each of its members is taken in, one after the other. -/
namespace Keyring.Json

namespace Member

/-- What the name stands for. A name with half a pair stands for no text. -/
def IsNamed (m : Member) (name : String) : Prop := Spelling m.name name.toList

/-- The value is a text. -/
def IsText (m : Member) (text : String) : Prop := ∃ body, m.value = '"' :: (body ++ ['"']) ∧ Spelling body text.toList

end Member

/-- The documents that are an object, with any blanks around it. -/
inductive Object : List Char → List Member → Prop
  | empty {before inside after : List Char} (white_before : White before) (white_inside : White inside)
      (white_after : White after) : Object (before ++ '{' :: (inside ++ '}' :: after)) []
  | members {before t after : List Char} {ms : List Member} (white_before : White before)
      (members : Phrase (.members ms) t) (white_after : White after) : Object (before ++ '{' :: (t ++ '}' :: after)) ms

variable {σ : Type} {F : Shape.Fields σ} {s s' : σ} {m : Member} {ms : List Member} {name : String} {n : Nat}
  {t w r : List Char}

/-- How a member is taken in: it is passed over, or it is a field that was not read before and has a text as its
value. -/
inductive Takes (F : Shape.Fields σ) (s : σ) (m : Member) : σ → Prop
  | other {name : String} (isNamed : m.IsNamed name) (seen : F.seen? s name = none) : Takes F s m s
  | field {name value : String} {s' : σ} (isNamed : m.IsNamed name) (isText : m.IsText value)
      (seen : F.seen? s name = some false) (put : F.put s name value = .ok s') : Takes F s m s'

/-- How members are taken in, one after the other. -/
inductive TakesAll (F : Shape.Fields σ) : σ → List Member → σ → Prop
  | nil {s : σ} : TakesAll F s [] s
  | cons {s u s' : σ} {m : Member} {ms : List Member} (first : Takes F s m u) (rest : TakesAll F u ms s') :
      TakesAll F s (m :: ms) s'

lemma Member.IsNamed.unique {name' : String} (h : m.IsNamed name) (h' : m.IsNamed name') : name = name' :=
  String.toList_injective (Spelling.unique h h')

lemma quoted_inj {b b' : List Char} (h : '"' :: (b ++ ['"']) = '"' :: (b' ++ ['"'])) : b = b' :=
  List.append_cancel_right (List.cons.inj h).2

lemma Member.IsText.unique {text text' : String} (h : m.IsText text) (h' : m.IsText text') : text = text' := by
  obtain ⟨b,hb,ht⟩ := h
  obtain ⟨b',hb',ht'⟩ := h'
  obtain rfl := quoted_inj (hb.symm.trans hb')
  exact String.toList_injective (Spelling.unique ht ht')

lemma Takes.exists_name (h : Takes F s m s') : ∃ name, m.IsNamed name := by
  cases h with
  | other isNamed _ => exact ⟨_,isNamed⟩
  | field isNamed _ _ _ => exact ⟨_,isNamed⟩

/-- Members that are taken in have names. -/
lemma TakesAll.exists_name (h : TakesAll F s ms s') (hm : m ∈ ms) : ∃ name, m.IsNamed name := by
  induction h with
  | nil => cases hm
  | cons first _ ih =>
    rcases List.mem_cons.mp hm with rfl | hm
    · exact first.exists_name
    · exact ih hm

lemma takesAll_append_iff {ms' : List Member} :
    TakesAll F s (ms ++ ms') s' ↔ ∃ u, TakesAll F s ms u ∧ TakesAll F u ms' s' := by
  induction ms generalizing s with
  | nil =>
    refine ⟨fun h => ⟨s,.nil,h⟩,fun ⟨u,h,h'⟩ => ?_⟩
    cases h
    exact h'
  | cons m ms ih =>
    refine ⟨fun h => ?_,fun ⟨u,h,h'⟩ => ?_⟩
    · cases h with
      | cons first rest =>
        obtain ⟨u,h,h'⟩ := ih.mp rest
        exact ⟨u,.cons first h,h'⟩
    · cases h with
      | cons first rest => exact .cons first (ih.mpr ⟨u,rest,h'⟩)

/-- What begins with another character is never read as a text. -/
lemma exists_otherKind (α : Type) (t : List Char) : ∃ fault, (otherKind t : Read α) = .error fault := by
  unfold otherKind
  split
  · exact ⟨_,rfl⟩
  · split_ifs
    · exact ⟨_,rfl⟩
    · exact ⟨_,rfl⟩
    · exact ⟨_,rfl⟩
    · split
      · split_ifs <;> exact ⟨_,rfl⟩
      · split
        · split_ifs <;> exact ⟨_,rfl⟩
        · exact ⟨_,rfl⟩

/-- A value is a text, or begins with another character than a quotation mark. -/
lemma Phrase.value_cases {v : List Char} (h : Phrase .value v) : (∃ b, v = '"' :: (b ++ ['"']) ∧ Body b) ∨
    ∃ c u, v = c :: u ∧ isBlank c = false ∧ c ≠ '"' := by
  cases h with
  | word isWord =>
    rcases isWord with rfl | rfl | rfl
    · exact .inr ⟨'n',_,rfl,by decide,by decide⟩
    · exact .inr ⟨'t',_,rfl,by decide,by decide⟩
    · exact .inr ⟨'f',_,rfl,by decide,by decide⟩
  | number isNumber =>
    obtain ⟨c,u,hv,hc⟩ := isNumber.exists_cons
    exact .inr ⟨c,u,hv,not_isBlank_of_first hc,ne_of_first hc rfl (by decide)⟩
  | text isBody => exact .inl ⟨_,rfl,isBody⟩
  | emptyArray _ => exact .inr ⟨'[',_,rfl,by decide,by decide⟩
  | array _ => exact .inr ⟨'[',_,rfl,by decide,by decide⟩
  | emptyObject _ => exact .inr ⟨'{',_,rfl,by decide,by decide⟩
  | object _ => exact .inr ⟨'{',_,rfl,by decide,by decide⟩

/-- The value of a member is read as a text where it is one. -/
lemma text_cases (h : Phrase (.item m.value) t) (hr : Closes r) :
    (∃ p u, m.IsText p ∧ Json.text (t ++ r) = .ok (p,u) ∧ skipBlanks u = r) ∨
      (∀ p, ¬m.IsText p) ∧ ∃ fault, Json.text (t ++ r) = .error fault := by
  generalize hv : m.value = v at h
  cases h with
  | @item before _ after white_before value white_after =>
    rw [List.append_assoc,List.append_assoc,Json.text,skipBlanks_white white_before]
    rcases value.value_cases with ⟨b,rfl,hbody⟩ | ⟨c,u,rfl,hblank,hmark⟩
    · rw [List.cons_append,List.append_assoc,List.singleton_append,skipBlanks_of_not_isBlank (by rfl)]
      rcases readText_cases hbody (after ++ r) with ⟨p,hp,hread⟩ | ⟨hnone,hread⟩
      · refine .inl ⟨String.ofList p,after ++ r,⟨b,hv,by rwa [String.toList_ofList]⟩,?_,?_⟩
        · simp only [hread]
        · rw [skipBlanks_white white_after,hr.skipBlanks_eq]
      · refine .inr ⟨?_,_,by simp only [hread]; rfl⟩
        rintro p ⟨b',hb',hp⟩
        obtain rfl := quoted_inj (hv.symm.trans hb')
        exact hnone _ hp
    · rw [List.cons_append,skipBlanks_of_not_isBlank hblank]
      refine .inr ⟨?_,?_⟩
      · rintro p ⟨b,hb,-⟩
        exact hmark (List.cons.inj (hv.symm.trans hb)).1
      · split
        · next hcons => exact absurd (List.cons.inj hcons).1 hmark
        · exact exists_otherKind _ _

/-- What is taken in of a member whose name is known. -/
lemma takes_iff (hname : m.IsNamed name) : Takes F s m s' ↔ F.seen? s name = none ∧ s = s' ∨
    F.seen? s name = some false ∧ ∃ value, m.IsText value ∧ F.put s name value = .ok s' := by
  constructor
  · intro h
    cases h with
    | other hname' seen => exact .inl ⟨hname.unique hname' ▸ seen,rfl⟩
    | field hname' isText seen put =>
      obtain rfl := hname.unique hname'
      exact .inr ⟨seen,_,isText,put⟩
  · rintro (⟨seen,rfl⟩ | ⟨seen,value,isText,put⟩)
    · exact .other hname seen
    · exact .field hname isText seen put

/-- A member is taken in by its name and its value. -/
lemma member_eq_ok_iff {r' : List Char} (hname : m.IsNamed name) (hw : White w) (hitem : Phrase (.item m.value) t)
    (hr : Closes r) : (∃ u, member F s name (w ++ ':' :: (t ++ r)) = .ok (s',u) ∧ skipBlanks u = r') ↔
      Takes F s m s' ∧ r' = r := by
  have hcolon : skipBlanks (w ++ ':' :: (t ++ r)) = ':' :: (t ++ r) := by
    rw [skipBlanks_white hw,skipBlanks_of_not_isBlank (by rfl)]
  rw [member,hcolon,takes_iff hname]
  cases hseen : F.seen? s name with
  | none =>
    obtain ⟨u,hskip,hu⟩ := Option.map_eq_some_iff.mp (skipAny_item hitem hr)
    simp [hskip,and_assoc,hu,eq_comm]
  | some seen =>
    cases seen with
    | true => simp
    | false =>
      rcases text_cases hitem hr with ⟨p,u,hp,hread,hu⟩ | ⟨hnone,fault,hread⟩
      · have hput : (∃ value, m.IsText value ∧ F.put s name value = .ok s') ↔ F.put s name p = .ok s' :=
          ⟨fun ⟨_,hvalue,hput⟩ => hp.unique hvalue ▸ hput,fun hput => ⟨p,hp,hput⟩⟩
        simp only [hread,hput,bind,Except.bind]
        cases F.put s name p with
        | error reason => simp
        | ok s₁ => simp [and_assoc,hu,eq_comm]
      · simp [hread,hnone,bind,Except.bind]

/-- What is read first, and then what is behind it. -/
lemma bind_eq_ok_iff {α β : Type} {x : Read α} {f : α → Read β} {b : β} :
    x >>= f = .ok b ↔ ∃ a, x = .ok a ∧ f a = .ok b := by
  cases x with
  | error fault => simp [bind,Except.bind]
  | ok a => simp [bind,Except.bind]

/-- What a record does behind a member, where `n` calls are left. -/
def follow (F : Shape.Fields σ) (n : Nat) (s : σ) : List Char → Read (σ × List Char)
  | ',' :: r => members F n s (skipBlanks r)
  | '}' :: r => .ok (s,r)
  | _ => malformed

/-- The parts of a member, from its name on. -/
lemma Phrase.exists_parts (h : Phrase (.member m) t) : Body m.name ∧ ∃ w u, White w ∧ Phrase (.item m.value) u ∧
    ∀ r, skipBlanks (t ++ r) = '"' :: (m.name ++ '"' :: (w ++ ':' :: (u ++ r))) := by
  cases h with
  | @member before name behind v u white_before isBody white_behind item =>
    refine ⟨isBody,behind,u,white_behind,item,fun r => ?_⟩
    have happend : before ++ '"' :: (name ++ '"' :: (behind ++ ':' :: u)) ++ r =
        before ++ '"' :: (name ++ '"' :: (behind ++ ':' :: (u ++ r))) := by simp
    rw [happend,skipBlanks_white white_before,skipBlanks_of_not_isBlank (by rfl)]

/-- A member is taken in before what follows it is looked at. -/
lemma members_member {q : σ × List Char} (h : Phrase (.member m) t) (hr : Closes r) :
    members F (n+1) s (skipBlanks (t ++ r)) = .ok q ↔ ∃ s', Takes F s m s' ∧ follow F n s' r = .ok q := by
  obtain ⟨hbody,w,u,hw,hitem,hskip⟩ := h.exists_parts
  rw [hskip,members]
  rcases readText_cases hbody (w ++ ':' :: (u ++ r)) with ⟨name,hname,hread⟩ | ⟨hnone,hread⟩
  · have hnamed : m.IsNamed (String.ofList name) := by rwa [Member.IsNamed,String.toList_ofList]
    have hmember {s' : σ} {r' : List Char} : (∃ x, member F s (String.ofList name) (w ++ ':' :: (u ++ r)) = .ok (s',x) ∧
        skipBlanks x = r') ↔ Takes F s m s' ∧ r' = r := member_eq_ok_iff hnamed hw hitem hr
    simp only [hread]
    rw [bind_eq_ok_iff]
    constructor
    · rintro ⟨⟨s',x⟩,hcase,hq⟩
      obtain ⟨htakes,hx⟩ := hmember.mp ⟨x,hcase,rfl⟩
      exact ⟨s',htakes,hx ▸ hq⟩
    · rintro ⟨s',htakes,hq⟩
      obtain ⟨x,hcase,hx⟩ := hmember.mpr ⟨htakes,rfl⟩
      exact ⟨(s',x),hcase,hx ▸ hq⟩
  · simp only [hread]
    refine iff_of_false nofun ?_
    rintro ⟨s',htakes,-⟩
    obtain ⟨name,hname⟩ := htakes.exists_name
    exact hnone _ hname

/-- The members of an object are read where all of them are taken in. -/
theorem members_eq_ok_iff {r' : List Char} (h : Phrase (.members ms) t) (hn : (skipBlanks (t ++ '}' :: r)).length < n) :
    members F n s (skipBlanks (t ++ '}' :: r)) = .ok (s',r') ↔ TakesAll F s ms s' ∧ r' = r := by
  induction ms generalizing t s n with
  | nil => cases h
  | cons m ms ih =>
    obtain ⟨n,rfl⟩ := Nat.exists_eq_succ_of_ne_zero (Nat.ne_of_gt (Nat.zero_lt_of_lt hn))
    cases h with
    | lastMember member =>
      rw [members_member member ⟨_,_,rfl,.inr (.inr rfl)⟩]
      simp only [follow,Except.ok.injEq,Prod.mk.injEq]
      constructor
      · rintro ⟨s',htakes,rfl,hr⟩
        exact ⟨.cons htakes .nil,hr.symm⟩
      · rintro ⟨htakes,rfl⟩
        cases htakes with
        | cons first rest =>
          cases rest
          exact ⟨_,first,rfl,rfl⟩
    | @moreMembers _ _ t u member members =>
      rw [List.append_assoc,List.cons_append] at hn ⊢
      rw [members_member member ⟨_,_,rfl,.inl rfl⟩]
      have hlength : (skipBlanks (u ++ '}' :: r)).length < n := by
        obtain ⟨-,w,v,-,-,hskip⟩ := member.exists_parts
        have hskipped := List.Sublist.length_le (List.dropWhile_sublist isBlank (l := u ++ '}' :: r))
        rw [hskip] at hn
        simp only [List.length_cons,List.length_append,skipBlanks] at hn hskipped ⊢
        omega
      constructor
      · rintro ⟨s',htakes,hrest⟩
        obtain ⟨hall,hr⟩ := (ih members hlength).mp hrest
        exact ⟨.cons htakes hall,hr⟩
      · rintro ⟨htakes,hr⟩
        cases htakes with
        | cons first rest => exact ⟨_,first,(ih members hlength).mpr ⟨rest,hr⟩⟩

/-- Members begin with the mark of a name. -/
lemma Phrase.exists_mark (h : Phrase (.members ms) t) (r : List Char) : ∃ u, skipBlanks (t ++ r) = '"' :: u := by
  cases h with
  | lastMember member =>
    obtain ⟨-,w,u,-,-,hskip⟩ := member.exists_parts
    exact ⟨_,hskip r⟩
  | moreMembers member _ =>
    obtain ⟨-,w,u,-,-,hskip⟩ := member.exists_parts
    exact ⟨_,List.append_assoc .. ▸ hskip _⟩

/-- The record of an object, and what stands behind it. -/
lemma record_eq_ok_iff {document : List Char} (h : Object document ms) (F : Shape.Fields σ) (field : String) :
    ∃ after, White after ∧ ∀ s' r', record F field document = .ok (s',r') ↔ TakesAll F F.empty ms s' ∧ r' = after := by
  cases h with
  | @empty before inside after white_before white_inside white_after =>
    refine ⟨after,white_after,fun s' r' => ?_⟩
    rw [record,skipBlanks_white white_before,skipBlanks_of_not_isBlank (by rfl)]
    simp only [skipBlanks_white white_inside,skipBlanks_of_not_isBlank (show isBlank '}' = false from rfl),
      Except.ok.injEq,Prod.mk.injEq]
    refine and_congr ⟨?_,fun htakes => ?_⟩ eq_comm
    · rintro rfl
      exact .nil
    · cases htakes
      rfl
  | @members before t after _ white_before members white_after =>
    refine ⟨after,white_after,fun s' r' => ?_⟩
    obtain ⟨u,hu⟩ := members.exists_mark ('}' :: after)
    rw [← members_eq_ok_iff members (Nat.lt_succ_self _),hu,record,skipBlanks_white white_before,
      skipBlanks_of_not_isBlank (by rfl)]
    simp only [hu]
    exact Iff.rfl

/-- An object is read where all of its members are taken in, whatever is made of the record then. -/
theorem record_object {α : Type} {a : α} {field : String} {document : List Char} (f : σ → α)
    (h : Object document ms) : (do let (s,r) ← record F field document; finish (f s) r) = .ok a ↔
      ∃ s', TakesAll F F.empty ms s' ∧ f s' = a := by
  obtain ⟨after,hafter,hrecord⟩ := record_eq_ok_iff h F field
  have hfinish (s : σ) : finish (f s) after = .ok (f s) := by
    rw [finish,if_pos]
    rw [← List.append_nil after,skipBlanks_white hafter]
    rfl
  rw [bind_eq_ok_iff]
  constructor
  · rintro ⟨⟨s',r⟩,hread,hfinished⟩
    obtain ⟨htakes,rfl⟩ := (hrecord s' r).mp hread
    exact ⟨s',htakes,Except.ok.inj ((hfinish s').symm.trans hfinished)⟩
  · rintro ⟨s',htakes,rfl⟩
    exact ⟨(s',after),(hrecord s' after).mpr ⟨htakes,rfl⟩,hfinish s'⟩

end Keyring.Json
