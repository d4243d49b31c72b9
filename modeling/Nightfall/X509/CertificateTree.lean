import Nightfall.X509.DerNesting
import Nightfall.X509.Extensions

/-!
# Where extensions are read from

A certificate as a forest of TLVs, with arbitrary fields before its extensions, among them the names of
the issuer and the subject.  The contract reads an extension from the certificate's extensions exactly
when no other element at depth 5 that reads as the object identifier stands in front of it
(`extensions_read_iff`).
-/

namespace Nightfall

namespace X509

namespace Der

open Evm Tlv

/-! ### Certificates -/

/-- An `Extension`, with its length octets. -/
structure Extension where
  length : Bytes
  idLength : Bytes
  /-- The contents of the object identifier. -/
  extnID : Bytes
  /-- The length octets and the contents of the criticality flag. -/
  critical : Option (Bytes × Bytes)
  valueLength : Bytes
  extnValue : Bytes
  deriving DecidableEq, Repr

/-- What stands behind the object identifier: the flag, if there is one, and the value. -/
def Extension.tail (e : Extension) : Forest :=
  let value := Forest.primitive 0x04 e.valueLength e.extnValue .nil
  e.critical.elim value fun flag => .primitive 0x01 flag.1 flag.2 value

/-- The elements inside an extension. -/
def Extension.body (e : Extension) : Forest := .primitive 0x06 e.idLength e.extnID e.tail

/-- Extensions one after the other. -/
def extensionForest : List Extension → Forest
  | [] => .nil
  | e :: es => .constructed 0x30 e.length e.body (extensionForest es)

/-- The tags of the fields before the optional ones: version, serial number, signature algorithm,
issuer, validity, subject and public key. -/
def fieldTags : List (BitVec 8) := [0xa0, 0x02, 0x30, 0x30, 0x30, 0x30, 0x30]

/-- An X.509 v3 certificate, with its length octets. -/
structure Certificate where
  length : Bytes
  tbsLength : Bytes
  /-- The fields of the `TBSCertificate` before the extensions. -/
  fields : Forest
  fields_tags : ∃ ids ∈ [[], [0x81], [0x82], [0x81, 0x82]], fields.tags = fieldTags ++ ids
  explicitLength : Bytes
  extensionsLength : Bytes
  extensions : List Extension
  algorithmLength : Bytes
  signatureAlgorithm : Forest
  signatureLength : Bytes
  signatureValue : Bytes

namespace Certificate

variable (c : Certificate)

/-- The field `extensions` of the `TBSCertificate`. -/
def extensionsField : Forest :=
  .constructed 0xa3 c.explicitLength
    (.constructed 0x30 c.extensionsLength (extensionForest c.extensions) .nil) .nil

/-- The certificate as a forest. -/
def forest : Forest :=
  .constructed 0x30 c.length
    (.constructed 0x30 c.tbsLength (c.fields.append c.extensionsField)
      (.constructed 0x30 c.algorithmLength c.signatureAlgorithm
        (.primitive 0x03 c.signatureLength c.signatureValue .nil))) .nil

/-- The elements of the certificate. -/
def tlvs : List DecodedTlv := preorder 0 0 c.forest

/-- The offset of the first extension. -/
def extensionsStart : ℕ :=
  1 + c.length.length + (1 + c.tbsLength.length) + c.fields.encode.length +
    (1 + c.explicitLength.length) + (1 + c.extensionsLength.length)

end Certificate

/-! ### The place of an extension -/

/-- An extension at an offset. -/
structure Place where
  extension : Extension
  start : ℕ

/-- The extensions at their offsets. -/
def places (start : ℕ) : List Extension → List Place
  | [] => []
  | e :: es => ⟨e, start⟩ :: places (start + (1 + e.length.length) + e.body.encode.length) es

namespace Place

variable (p : Place)

/-- The element of the extension. -/
def sequence : DecodedTlv :=
  element p.start 4 0x30 p.extension.length p.extension.body.encode

/-- The element of the object identifier. -/
def identifier : DecodedTlv :=
  element (p.start + (1 + p.extension.length.length)) 5 0x06 p.extension.idLength
    p.extension.extnID

/-- The offset behind the object identifier. -/
def tailStart : ℕ :=
  p.start + (1 + p.extension.length.length) + (1 + p.extension.idLength.length) +
    p.extension.extnID.length

/-- The element of the criticality flag. -/
def flag : Option DecodedTlv :=
  p.extension.critical.map fun flag => element p.tailStart 5 0x01 flag.1 flag.2

/-- The element of the value. -/
def value : DecodedTlv :=
  element (p.extension.critical.elim p.tailStart fun flag =>
    p.tailStart + (1 + flag.1.length) + flag.2.length) 5 0x04 p.extension.valueLength
    p.extension.extnValue

end Place

/-- The places of the extensions of a certificate. -/
def Certificate.places (c : Certificate) : List Place := Der.places c.extensionsStart c.extensions

/-! ### What is to be shown -/

/-- The contents of the object identifier of a lookup. -/
def Lookup.contents (l : Lookup) : Bytes := (toBytesBE l.oid).take 3

/-- The lookup is rejected or reads the value of an extension of the certificate that has the object
identifier; without such an extension, it is rejected. -/
def ReadsExtension (c : Certificate) (l : Lookup) (tlvs : List DecodedTlv) : Prop :=
  ∀ t, l.find tlvs = .ok t →
    ∃ p ∈ c.places, p.extension.extnID = l.contents ∧ t = p.value

/-- Every element at depth 5 whose contents read as the object identifier is the one of an extension
that has it, or stands behind it; the extension has no criticality flag where that isn't skipped. -/
def Unobstructed (c : Certificate) (l : Lookup) : Prop :=
  ∀ before t after, c.tlvs = before ++ t :: after → t.depth = 5 → bytes32 t.value = l.oid →
    ∃ p ∈ c.places, p.extension.extnID = l.contents ∧ p.identifier ∈ before ++ [t] ∧
      (l.skipsCritical = true ∨ p.extension.critical = none)

/-! ### The elements of a certificate -/

theorem preorder_append (start depth : ℕ) (ts us : Forest) :
    preorder start depth (ts.append us) =
      preorder start depth ts ++ preorder (start + ts.encode.length) depth us := by
  induction ts generalizing start with
  | nil => rfl
  | primitive tag length content ts ih =>
    rw [Forest.append, preorder, preorder, ih, List.cons_append]
    congr 3
    simp only [Forest.encode, List.length_cons, List.length_append]
    omega
  | constructed tag length children ts _ ih =>
    rw [Forest.append, preorder, preorder, ih, List.cons_append, List.append_assoc]
    congr 4
    simp only [Forest.encode, List.length_cons, List.length_append]
    omega

theorem pairwise_preorder (start depth : ℕ) (ts : Forest) :
    (preorder start depth ts).Pairwise fun t u => t.start < u.start := by
  induction ts generalizing start depth with
  | nil => exact .nil
  | primitive tag length content ts ih =>
    rw [preorder, List.pairwise_cons]
    refine ⟨fun u hu => ?_, ih _ _⟩
    have hle := (within_of_mem_preorder hu).start_le
    simp only [element]
    omega
  | constructed tag length children ts ihc ih =>
    rw [preorder, List.pairwise_cons, List.pairwise_append]
    refine ⟨fun u hu => ?_, ihc _ _, ih _ _, fun t ht u hu => ?_⟩
    · rcases List.mem_append.1 hu with hu | hu
      · have hle := (within_of_mem_preorder hu).start_le
        simp only [element]
        omega
      · have hle := (within_of_mem_preorder hu).start_le
        simp only [element]
        omega
    · have ht := within_of_mem_preorder ht
      have hlt := ht.start_lt.trans_le (ht.contentStart_le.trans ht.stop_le)
      have hle := (within_of_mem_preorder hu).start_le
      omega

theorem octets_of_mem_preorder {start depth : ℕ} {ts : Forest} {t : DecodedTlv}
    (h : t ∈ preorder start depth ts) : ∃ first rest, t.octets = first :: rest := by
  induction ts generalizing start depth with
  | nil => exact absurd h List.not_mem_nil
  | primitive tag length content ts ih =>
    rcases List.mem_cons.1 h with rfl | h
    · exact ⟨_, _, rfl⟩
    · exact ih h
  | constructed tag length children ts ihc ih =>
    rcases List.mem_cons.1 h with rfl | h
    · exact ⟨_, _, rfl⟩
    · exact (List.mem_append.1 h).elim (fun h => ihc h) fun h => ih h

theorem Certificate.tlvs_eq (c : Certificate) :
    ∃ root tbs i field list algorithm j signature,
      c.tlvs = root :: tbs :: (preorder i 2 c.fields ++ field :: list ::
        (preorder c.extensionsStart 4 (extensionForest c.extensions) ++ algorithm ::
          (preorder j 2 c.signatureAlgorithm ++ [signature]))) ∧
      signature.depth = 1 ∧ signature.octets.head? = some 0x03 := by
  have h : preorder 0 0 c.forest = c.tlvs := rfl
  simp only [forest, extensionsField, preorder, preorder_append, List.append_nil, List.append_assoc,
    List.cons_append, Nat.zero_add] at h
  exact ⟨_, _, _, _, _, _, _, _, h.symm, rfl, rfl⟩

theorem preorder_extensionForest {es : List Extension} {start : ℕ} {p : Place}
    (h : p ∈ Der.places start es) : ∃ before after,
      preorder start 4 (extensionForest es) =
        before ++ p.sequence :: p.identifier :: (p.flag.toList ++ p.value :: after) := by
  induction es generalizing start with
  | nil => exact absurd h List.not_mem_nil
  | cons e es ih =>
    rw [extensionForest, preorder]
    rcases List.mem_cons.1 h with rfl | h
    · have hbody : preorder (start + (1 + e.length.length)) (4 + 1) e.body =
          (Place.mk e start).identifier :: ((Place.mk e start).flag.toList ++
            [(Place.mk e start).value]) := by
        rw [Extension.body, preorder, Extension.tail]
        cases hflag : e.critical with
        | none =>
          simp only [Place.identifier, Place.flag, Place.value, Place.tailStart, hflag]
          rfl
        | some flag =>
          simp only [Place.identifier, Place.flag, Place.value, Place.tailStart, hflag]
          rfl
      refine ⟨[], preorder (start + (1 + e.length.length) + e.body.encode.length) 4
        (extensionForest es), ?_⟩
      rw [hbody, List.nil_append, List.cons_append, List.append_assoc]
      rfl
    · obtain ⟨before, after, heq⟩ := ih h
      exact ⟨_ :: (preorder (start + (1 + e.length.length)) (4 + 1) e.body ++ before), after, by
        rw [heq, List.cons_append, List.append_assoc]⟩

section

variable {c : Certificate} {p : Place} {l : Lookup} {t u : DecodedTlv}
  {before after rest : List DecodedTlv}

theorem Certificate.place_eq (h : p ∈ c.places) : ∃ before after,
    c.tlvs = before ++ p.sequence :: p.identifier :: (p.flag.toList ++ p.value :: after) := by
  obtain ⟨root, tbs, i, field, list, algorithm, j, signature, heq, -, -⟩ := c.tlvs_eq
  obtain ⟨before, after, hplace⟩ := preorder_extensionForest h
  rw [hplace] at heq
  refine ⟨root :: tbs :: (preorder i 2 c.fields ++ field :: list :: before),
    after ++ algorithm :: (preorder j 2 c.signatureAlgorithm ++ [signature]), heq.trans ?_⟩
  simp

theorem Certificate.last_eq (c : Certificate) : ∃ before signature,
    c.tlvs = before ++ [signature] ∧ signature.depth = 1 ∧
      signature.octets.head? = some 0x03 := by
  obtain ⟨root, tbs, i, field, list, algorithm, j, signature, heq, hdepth, hhead⟩ := c.tlvs_eq
  refine ⟨root :: tbs :: (preorder i 2 c.fields ++ field :: list ::
    (preorder c.extensionsStart 4 (extensionForest c.extensions) ++ algorithm ::
      preorder j 2 c.signatureAlgorithm)), signature, heq.trans ?_, hdepth, hhead⟩
  simp

/-- An element occurs at one place only. -/
theorem Certificate.split_unique {before' after' : List DecodedTlv}
    (h : c.tlvs = before ++ t :: after) (h' : c.tlvs = before' ++ t :: after') :
    before = before' ∧ after = after' := by
  have hascends := pairwise_preorder 0 0 c.forest
  rw [← Certificate.tlvs, h, List.pairwise_append, List.pairwise_cons] at hascends
  have hnotbefore : t ∉ before := fun hmem =>
    Nat.lt_irrefl _ (hascends.2.2 t hmem t List.mem_cons_self)
  have hnotafter : t ∉ after := fun hmem => Nat.lt_irrefl _ (hascends.2.1.1 t hmem)
  obtain ⟨hbefore, -, hafter⟩ :=
    (List.append_cons_inj_of_notMem hnotbefore hnotafter).1 (h.symm.trans h')
  exact ⟨hbefore, hafter⟩

/-- The element that the value is taken from stands behind the first one that is taken for the
object identifier. -/
theorem Lookup.find_eq_ok (first : BitVec 8) {octets : Bytes} {v : DecodedTlv}
    (hbefore : ∀ x ∈ before, l.accepts x = false) (ht : l.accepts t = true)
    (hu : u.octets = first :: octets) :
    l.find (before ++ t :: u :: rest) = .ok v ↔
      if l.skipsCritical = true ∧ first = 0x01 then rest.head? = some v else u = v := by
  have hi : (before ++ t :: u :: rest).findIdx l.accepts = before.length := by
    rw [List.findIdx_append, List.findIdx_eq_length_of_false hbefore, if_neg (Nat.lt_irrefl _),
      List.findIdx_cons, ht]
    exact Nat.zero_add _
  have hlt : before.length < (before ++ t :: u :: rest).length := by simp
  have hnext : (before ++ t :: u :: rest)[before.length + 1]? = some u := by simp
  have hsecond : (before ++ t :: u :: rest)[before.length + 2]? = rest.head? := by
    rw [List.getElem?_append_right (Nat.le_add_right _ _), Nat.add_sub_cancel_left]
    exact List.head?_eq_getElem?.symm
  have hindex : index (before ++ t :: u :: rest) (before.length + 1) = .ok u :=
    index_eq_ok_iff_getElem?.2 hnext
  have hfirst : index u.octets 0 = .ok first := by
    rw [hu]
    rfl
  rw [Lookup.find, hi, require, if_pos hlt]
  change (index (before ++ t :: u :: rest) (before.length + 1) >>= fun tlv =>
    if l.skipsCritical = true then index tlv.octets 0 >>= fun first =>
      if first = 0x01 then index (before ++ t :: u :: rest) (before.length + 2) else pure tlv
    else pure tlv) = .ok v ↔ _
  rw [hindex]
  change (if l.skipsCritical = true then index u.octets 0 >>= fun first =>
      if first = 0x01 then index (before ++ t :: u :: rest) (before.length + 2) else pure u
    else pure u) = .ok v ↔ _
  rw [hfirst]
  by_cases hskips : l.skipsCritical = true
  · rw [if_pos hskips]
    change (if first = 0x01 then index (before ++ t :: u :: rest) (before.length + 2)
      else pure u) = .ok v ↔ _
    by_cases hone : first = 0x01
    · rw [if_pos hone, if_pos ⟨hskips, hone⟩, index_eq_ok_iff_getElem?, hsecond]
    · rw [if_neg hone, if_neg (fun hand => hone hand.2), pure_eq_ok]
  · rw [if_neg hskips, if_neg (fun hand => hskips hand.1), pure_eq_ok]

theorem Lookup.find_ne_ok {tlvs : List DecodedTlv} (h : ∀ x ∈ tlvs, l.accepts x = false) :
    l.find tlvs ≠ .ok t := by
  have hi : ¬ tlvs.findIdx l.accepts < tlvs.length := by
    rw [List.findIdx_eq_length_of_false h]
    exact Nat.lt_irrefl _
  rw [Lookup.find, require, if_neg hi]
  intro hok
  cases hok

theorem Lookup.accepts_iff : l.accepts t = true ↔ t.depth = 5 ∧ bytes32 t.value = l.oid := by
  rw [Lookup.accepts, Bool.and_eq_true, decide_eq_true_iff, decide_eq_true_iff]

theorem Lookup.accepts_identifier (hoid : bytes32 l.contents = l.oid)
    (h : p.extension.extnID = l.contents) : l.accepts p.identifier = true := by
  rw [Lookup.accepts_iff, Place.identifier, element, h, hoid]
  exact ⟨rfl, rfl⟩

/-- If no other element stands in front, then the value of an extension is read. -/
theorem readsExtension_of_unobstructed (n : ℕ) (hoid : bytes32 l.contents = l.oid)
    (h : Unobstructed c l) : ReadsExtension c l (c.tlvs ++ List.replicate n .zero) := by
  intro v hv
  cases hfind : c.tlvs.find? l.accepts with
  | none =>
    refine absurd hv (Lookup.find_ne_ok fun x hx => ?_)
    rcases List.mem_append.1 hx with hx | hx
    · exact Bool.eq_false_iff.2 (List.find?_eq_none.1 hfind x hx)
    · rw [List.eq_of_mem_replicate hx]
      rfl
  | some t =>
    obtain ⟨haccepts, before, after, heq, hbefore⟩ := List.find?_eq_some_iff_append.1 hfind
    have hnone : ∀ x ∈ before, l.accepts x = false := fun x hx => by simpa using hbefore x hx
    obtain ⟨hdepth, hvalue⟩ := Lookup.accepts_iff.1 haccepts
    obtain ⟨p, hp, hid, hfront, hcritical⟩ := h before t after heq hdepth hvalue
    obtain rfl : p.identifier = t := by
      rcases List.mem_append.1 hfront with hfront | hfront
      · have haccepted := Lookup.accepts_identifier hoid hid
        rw [hnone _ hfront] at haccepted
        cases haccepted
      · exact List.mem_singleton.1 hfront
    refine ⟨p, hp, hid, ?_⟩
    obtain ⟨before', after', hplace⟩ := Certificate.place_eq hp
    have hplace' : c.tlvs = (before' ++ [p.sequence]) ++ p.identifier ::
        (p.flag.toList ++ p.value :: after') := by
      rw [hplace]
      simp
    obtain ⟨-, rfl⟩ := Certificate.split_unique heq hplace'
    rw [heq, List.append_assoc, List.cons_append] at hv
    cases hflag : p.flag with
    | none =>
      rw [hflag, Option.toList_none, List.nil_append, List.cons_append,
        Lookup.find_eq_ok 0x04 hnone haccepts rfl, if_neg (by simp)] at hv
      exact hv.symm
    | some flag =>
      obtain ⟨octets, hcriticalflag, rfl⟩ := Option.map_eq_some_iff.1 hflag
      have hskips : l.skipsCritical = true := hcritical.resolve_right (by simp [hcriticalflag])
      rw [hflag, Option.toList_some, List.cons_append, List.nil_append, List.cons_append,
        Lookup.find_eq_ok 0x01 hnone haccepts rfl, if_pos ⟨hskips, rfl⟩] at hv
      exact (Option.some.inj hv).symm

/-- What stands in front of the value of an extension. -/
theorem Certificate.front_of_value (hp : p ∈ c.places) (h : c.tlvs = before ++ p.value :: after) :
    ∃ front, before = front ++ p.sequence :: p.identifier :: p.flag.toList := by
  obtain ⟨front, after', hplace⟩ := Certificate.place_eq hp
  have hplace' : c.tlvs = (front ++ p.sequence :: p.identifier :: p.flag.toList) ++
      p.value :: after' := by
    rw [hplace]
    simp
  exact ⟨front, (Certificate.split_unique h hplace').1⟩

/-- The element in front of the value is the object identifier, if this doesn't stand before it. -/
theorem Certificate.identifier_of_next (hp : p ∈ c.places)
    (h : c.tlvs = before ++ t :: p.value :: after) (hnot : p.identifier ∉ before) :
    t = p.identifier ∧ p.extension.critical = none := by
  obtain ⟨front, hsplit⟩ := @Certificate.front_of_value c p (before ++ [t]) after hp (by simp [h])
  cases hflag : p.flag with
  | none =>
    rw [hflag, Option.toList_none] at hsplit
    have hsplit' : before ++ [t] = (front ++ [p.sequence]) ++ [p.identifier] := by
      rw [hsplit]
      simp
    obtain ⟨-, hsingle⟩ := List.append_inj' hsplit' rfl
    exact ⟨(List.cons.inj hsingle).1, Option.map_eq_none_iff.1 hflag⟩
  | some flag =>
    rw [hflag, Option.toList_some] at hsplit
    have hsplit' : before ++ [t] = (front ++ [p.sequence, p.identifier]) ++ [flag] := by
      rw [hsplit]
      simp
    obtain ⟨rfl, -⟩ := List.append_inj' hsplit' rfl
    exact absurd (by simp) hnot

/-- The second element in front of the value is the object identifier or outside the extension. -/
theorem Certificate.identifier_of_second (hp : p ∈ c.places)
    (h : c.tlvs = before ++ t :: u :: p.value :: after) (hdepth : t.depth = 5) :
    t = p.identifier := by
  obtain ⟨front, hsplit⟩ := @Certificate.front_of_value c p (before ++ [t, u]) after hp (by simp [h])
  cases hflag : p.flag with
  | none =>
    rw [hflag, Option.toList_none] at hsplit
    obtain ⟨-, hpair⟩ := List.append_inj' hsplit rfl
    rw [(List.cons.inj hpair).1] at hdepth
    exact absurd (show 4 = 5 from hdepth) (by decide)
  | some flag =>
    rw [hflag, Option.toList_some] at hsplit
    have hsplit' : before ++ [t, u] = (front ++ [p.sequence]) ++ [p.identifier, flag] := by
      rw [hsplit]
      simp
    obtain ⟨-, hpair⟩ := List.append_inj' hsplit' rfl
    exact (List.cons.inj hpair).1

/-- Behind an element at depth 5 there is another one, and behind a boolean there is one more: the
last element is the signature, which isn't one. -/
theorem Certificate.exists_behind (h : c.tlvs = before ++ t :: after) (hdepth : t.depth = 5) :
    ∃ u rest first octets, after = u :: rest ∧ u.octets = first :: octets ∧
      (first = 0x01 → ∃ v rest', rest = v :: rest') := by
  obtain ⟨inner, signature, hlast, hsignature, hhead⟩ := c.last_eq
  cases after with
  | nil =>
    obtain ⟨-, hlast⟩ := List.append_inj' (h.symm.trans hlast) rfl
    rw [← (List.cons.inj hlast).1, hdepth] at hsignature
    exact absurd hsignature (by decide)
  | cons u rest =>
    obtain ⟨first, octets, hu⟩ := @octets_of_mem_preorder 0 0 c.forest u
      (by rw [← Certificate.tlvs, h]; simp)
    refine ⟨u, rest, first, octets, rfl, hu, fun hfirst => ?_⟩
    cases rest with
    | nil =>
      have hsplit : (before ++ [t]) ++ [u] = inner ++ [signature] := by
        rw [← hlast, h]
        simp
      obtain ⟨-, hlast⟩ := List.append_inj' hsplit rfl
      rw [← (List.cons.inj hlast).1, hu, hfirst] at hhead
      exact absurd (Option.some.inj hhead) (by decide)
    | cons v rest' => exact ⟨v, rest', rfl⟩

/-- If the value of an extension is read, then the first element taken for the object identifier is
that of the extension. -/
theorem identifier_of_readsExtension (n : ℕ) (hoid : bytes32 l.contents = l.oid)
    (h : ReadsExtension c l (c.tlvs ++ List.replicate n .zero))
    (hfind : c.tlvs.find? l.accepts = some t) :
    ∃ p ∈ c.places, p.extension.extnID = l.contents ∧ t = p.identifier ∧
      (l.skipsCritical = true ∨ p.extension.critical = none) := by
  obtain ⟨haccepts, before, after, heq, hbefore⟩ := List.find?_eq_some_iff_append.1 hfind
  have hnone : ∀ x ∈ before, l.accepts x = false := fun x hx => by simpa using hbefore x hx
  have hdepth : t.depth = 5 := (Lookup.accepts_iff.1 haccepts).1
  obtain ⟨u, rest, first, octets, rfl, hu, hboolean⟩ := Certificate.exists_behind heq hdepth
  have hfull : c.tlvs ++ List.replicate n .zero =
      before ++ t :: u :: (rest ++ List.replicate n .zero) := by
    rw [heq]
    simp
  have hfind := fun v => @Lookup.find_eq_ok l t u before (rest ++ List.replicate n .zero) first octets
    v hnone haccepts hu
  rw [ReadsExtension, hfull] at h
  by_cases hskips : l.skipsCritical = true ∧ first = 0x01
  · simp only [if_pos hskips] at hfind
    obtain ⟨v, rest', rfl⟩ := hboolean hskips.2
    obtain ⟨p, hp, hid, rfl⟩ := h v ((hfind v).2 rfl)
    exact ⟨p, hp, hid, Certificate.identifier_of_second hp heq hdepth, .inl hskips.1⟩
  · simp only [if_neg hskips] at hfind
    obtain ⟨p, hp, hid, rfl⟩ := h u ((hfind u).2 rfl)
    -- the object identifier itself would have been found before
    have hnot : p.identifier ∉ before := fun hmem => by
      have haccepted := Lookup.accepts_identifier hoid hid
      rw [hnone _ hmem] at haccepted
      cases haccepted
    obtain ⟨ht, hcritical⟩ := Certificate.identifier_of_next hp heq hnot
    exact ⟨p, hp, hid, ht, .inr hcritical⟩

theorem unobstructed_of_readsExtension (n : ℕ) (hoid : bytes32 l.contents = l.oid)
    (h : ReadsExtension c l (c.tlvs ++ List.replicate n .zero)) : Unobstructed c l := by
  intro before t after heq hdepth hvalue
  have haccepts : l.accepts t = true := Lookup.accepts_iff.2 ⟨hdepth, hvalue⟩
  obtain ⟨u, hu⟩ : ∃ u, (before ++ [t]).find? l.accepts = some u :=
    Option.isSome_iff_exists.1 (List.find?_isSome.2 ⟨t, by simp, haccepts⟩)
  have hfind : c.tlvs.find? l.accepts = some u := by
    have hsplit : c.tlvs = (before ++ [t]) ++ after := by
      rw [heq]
      simp
    rw [hsplit, List.find?_append, hu, Option.some_or]
  obtain ⟨p, hp, hid, rfl, hcritical⟩ := identifier_of_readsExtension n hoid h hfind
  exact ⟨p, hp, hid, List.mem_of_find?_eq_some hu, hcritical⟩

theorem bytes32_contents : ∀ l ∈ lookups, bytes32 l.contents = l.oid := by decide +kernel

/-- **Extensions are read from the extensions** exactly when no other element that reads as one of the
object identifiers stands in front of them. -/
theorem extensions_read_iff {tlvLength : ℕ} {tlvs : List DecodedTlv}
    (hsize : c.forest.encode.length < 2 ^ 256) (hwf : c.forest.WellFormed)
    (h : walkDerTree c.forest.encode 0 tlvLength = .ok tlvs) :
    (∀ l ∈ lookups, ReadsExtension c l tlvs) ↔ ∀ l ∈ lookups, Unobstructed c l := by
  obtain ⟨-, rfl⟩ := tlvs_of_walkDerTree hsize hwf List.drop_zero h
  constructor
  · intro hreads l hl
    exact unobstructed_of_readsExtension _ (bytes32_contents l hl) (hreads l hl)
  · intro hunobstructed l hl
    exact readsExtension_of_unobstructed _ (bytes32_contents l hl) (hunobstructed l hl)

end

/-! ### What an accepted call reads -/

section Calls

variable {c : Certificate} {l : Lookup} {tlvs : List DecodedTlv}

/-- A call that goes on with what its lookup finds goes on with the value of an extension. -/
theorem ReadsExtension.of_bind {α : Type} {f : DecodedTlv → Except Revert α} {a : α}
    (h : ReadsExtension c l tlvs) (hcall : l.find tlvs >>= f = .ok a) :
    ∃ p ∈ c.places, p.extension.extnID = l.contents ∧ f p.value = .ok a := by
  obtain ⟨t, hfind, hrest⟩ := bind_eq_ok.1 hcall
  obtain ⟨p, hp, hid, rfl⟩ := h t hfind
  exact ⟨p, hp, hid, hrest⟩

/-- The subject key identifier is the element in the value of the extension. -/
theorem extractSubjectKeyIdentifier_reads (h : ReadsExtension c subjectKeyIdentifier tlvs) {skid : U256}
    (hcall : extractSubjectKeyIdentifier tlvs = .ok skid) :
    ∃ p ∈ c.places, p.extension.extnID = subjectKeyIdentifier.contents ∧
      ∃ elements id, parseDER p.extension.extnValue 0 2 = .ok elements ∧ elements[0]? = some id ∧
        alignRight id.value id.length = .ok skid := by
  obtain ⟨p, hp, hid, hread⟩ := h.of_bind hcall
  simp only [bind_eq_ok, require_eq_ok, index_eq_ok_iff_getElem?] at hread
  obtain ⟨-, -, elements, helements, id, hindex, halign⟩ := hread
  exact ⟨p, hp, hid, elements, id, helements, hindex, halign⟩

/-- The authority key identifier is the second element in the value of the extension. -/
theorem extractAuthorityKeyIdentifier_reads (h : ReadsExtension c authorityKeyIdentifier tlvs)
    {akid : U256} (hcall : extractAuthorityKeyIdentifier tlvs = .ok akid) :
    ∃ p ∈ c.places, p.extension.extnID = authorityKeyIdentifier.contents ∧
      ∃ elements id, parseDER p.extension.extnValue 0 2 = .ok elements ∧ elements[1]? = some id ∧
        alignRight id.value id.value.length = .ok akid := by
  obtain ⟨p, hp, hid, hread⟩ := h.of_bind hcall
  simp only [bind_eq_ok, require_eq_ok, index_eq_ok_iff_getElem?] at hread
  obtain ⟨-, -, elements, helements, id, hindex, halign⟩ := hread
  exact ⟨p, hp, hid, elements, id, helements, hindex, halign⟩

/-- The flags of the extension, without those that don't count, have the ones of the mask. -/
theorem checkKeyUsage_reads (h : ReadsExtension c keyUsage tlvs) {usageBitMask : BitVec 8}
    (hcall : checkKeyUsage tlvs usageBitMask = .ok ()) :
    ∃ p ∈ c.places, p.extension.extnID = keyUsage.contents ∧
      ∃ (elements : List DecodedTlv) (usage : DecodedTlv) (ignored flags : BitVec 8),
        parseDER p.extension.extnValue 0 1 = .ok elements ∧ elements[0]? = some usage ∧
        usage.value[0]? = some ignored ∧ usage.value[1]? = some flags ∧
        ((flags >>> ignored.toNat) <<< ignored.toNat) &&& usageBitMask = usageBitMask := by
  obtain ⟨p, hp, hid, hread⟩ := h.of_bind hcall
  simp only [bind_eq_ok, require_eq_ok, index_eq_ok_iff_getElem?] at hread
  obtain ⟨elements, helements, usage, husage, -, -, ignored, hignored, flags, hflags, hmask⟩ := hread
  exact ⟨p, hp, hid, elements, usage, ignored, flags, helements, husage, hignored, hflags, hmask⟩

/-- The extension has every usage that is required. -/
theorem checkExtendedKeyUsage_reads (h : ReadsExtension c extendedKeyUsage tlvs)
    {extendedKeyUsageOIDs : List (List U256)} {oidGroup : ℕ} {required : List U256}
    (hrequired : extendedKeyUsageOIDs[oidGroup]? = some required)
    (hcall : checkExtendedKeyUsage extendedKeyUsageOIDs tlvs oidGroup = .ok ()) :
    ∃ p ∈ c.places, p.extension.extnID = extendedKeyUsage.contents ∧
      ∃ n usages, parseDER p.extension.extnValue 0 n = .ok usages ∧
        ∀ oid ∈ required, ∃ usage ∈ usages, bytes32 usage.octets = oid := by
  obtain ⟨p, hp, hid, hread⟩ := h.of_bind hcall
  simp only [bind_eq_ok, require_eq_ok, index_eq_ok_iff_getElem?, hrequired] at hread
  obtain ⟨n, -, usages, husages, _, ⟨⟩, hall⟩ := hread
  refine ⟨p, hp, hid, n, usages, husages, fun oid hoid => ?_⟩
  obtain ⟨usage, hmem, heq⟩ := List.any_eq_true.1 (List.all_eq_true.1 hall oid hoid)
  exact ⟨usage, hmem, of_decide_eq_true heq⟩

/-- The extension has every policy that is required. -/
theorem checkCertificatePolicies_reads (h : ReadsExtension c certificatePolicies tlvs)
    {certificatePoliciesOIDs : List (List U256)} {oidGroup : ℕ} {required : List U256}
    (hrequired : certificatePoliciesOIDs[oidGroup]? = some required)
    (hcall : checkCertificatePolicies certificatePoliciesOIDs tlvs oidGroup = .ok ()) :
    ∃ p ∈ c.places, p.extension.extnID = certificatePolicies.contents ∧
      ∃ n policies, parseDER p.extension.extnValue 0 n = .ok policies ∧
        ∀ oid ∈ required, ∃ policy ∈ policies, policy.depth = 2 ∧ bytes32 policy.octets = oid := by
  obtain ⟨p, hp, hid, hread⟩ := h.of_bind hcall
  simp only [bind_eq_ok, require_eq_ok, index_eq_ok_iff_getElem?, hrequired] at hread
  obtain ⟨n, -, policies, hpolicies, _, ⟨⟩, hall⟩ := hread
  refine ⟨p, hp, hid, n, policies, hpolicies, fun oid hoid => ?_⟩
  obtain ⟨_, hmem, heq⟩ := List.any_eq_true.1 (List.all_eq_true.1 hall oid hoid)
  obtain ⟨policy, hpolicy, rfl⟩ := List.mem_map.1 hmem
  rw [List.mem_filter, decide_eq_true_eq] at hpolicy
  exact ⟨policy, hpolicy.1, hpolicy.2, of_decide_eq_true heq⟩

end Calls

/-! ### A certificate -/

/-- The length octets of a short element. -/
def derLength (n : ℕ) : Bytes :=
  if n < 128 then [BitVec.ofNat 8 n] else [0x81, BitVec.ofNat 8 n]

/-- A short primitive element. -/
def derPrimitive (tag : BitVec 8) (content : Bytes) (rest : Forest) : Forest :=
  .primitive tag (derLength content.length) content rest

/-- A short constructed element. -/
def derConstructed (tag : BitVec 8) (children rest : Forest) : Forest :=
  .constructed tag (derLength children.encode.length) children rest

/-- A name with one attribute, which is a UTF-8 string. -/
def sampleName (type value : Bytes) : Forest :=
  derConstructed 0x31
    (derConstructed 0x30 (derPrimitive 0x06 type (derPrimitive 0x0c value .nil)) .nil) .nil

/-- An RSA algorithm without parameters. -/
def sampleAlgorithm (last : BitVec 8) : Forest :=
  derPrimitive 0x06 [0x2a, 0x86, 0x48, 0x86, 0xf7, 0x0d, 0x01, 0x01, last]
    (derPrimitive 0x05 [] .nil)

/-- The year 20`tens``ones` begins. -/
def sampleTime (tens ones : BitVec 8) : Bytes :=
  [tens, ones, 0x30, 0x31, 0x30, 0x31, 0x30, 0x30, 0x30, 0x30, 0x30, 0x30, 0x5a]

/-- The fields of a certificate before the extensions. -/
def sampleFields (subject : Forest) : Forest :=
  derConstructed 0xa0 (derPrimitive 0x02 [0x02] .nil)
    (derPrimitive 0x02 [0x01]
      (derConstructed 0x30 (sampleAlgorithm 0x0b)
        (derConstructed 0x30 (sampleName [0x55, 0x04, 0x03] [0x43, 0x41])
          (derConstructed 0x30
            (derPrimitive 0x17 (sampleTime 0x32 0x34) (derPrimitive 0x17 (sampleTime 0x33 0x34) .nil))
            (derConstructed 0x30 subject
              (derConstructed 0x30
                (derConstructed 0x30 (sampleAlgorithm 0x01)
                  (derPrimitive 0x03 [0x00, 0x30, 0x06, 0x02, 0x01, 0x0f, 0x02, 0x01, 0x03] .nil))
                .nil))))))

/-- An extension `id-ce` with the given number. -/
def sampleExtension (number : BitVec 8) (critical : Bool) (value : Bytes) : Extension :=
  let e : Extension := ⟨[], [0x03], [0x55, 0x1d, number],
    if critical then some ([0x01], [0xff]) else none, derLength value.length, value⟩
  { e with length := derLength e.body.encode.length }

/-- Key identifiers, key usage, extended key usage and policies. -/
def sampleExtensions : List Extension :=
  [sampleExtension 0x0e false [0x04, 0x02, 0x31, 0x32],
    sampleExtension 0x23 false [0x30, 0x04, 0x80, 0x02, 0x31, 0x33],
    sampleExtension 0x0f true [0x03, 0x02, 0x07, 0x80],
    sampleExtension 0x25 false
      [0x30, 0x0a, 0x06, 0x08, 0x2b, 0x06, 0x01, 0x05, 0x05, 0x07, 0x03, 0x02],
    sampleExtension 0x20 false [0x30, 0x06, 0x30, 0x04, 0x06, 0x02, 0x2a, 0x03]]

/-- A certificate with the given subject. -/
def sampleCertificate (subject : Forest) : Certificate :=
  let fields := sampleFields subject
  let list := derConstructed 0x30 (extensionForest sampleExtensions) .nil
  let tbs := fields.append (derConstructed 0xa3 list .nil)
  let rest := derConstructed 0x30 (sampleAlgorithm 0x0b) (derPrimitive 0x03 [0x00, 0x01] .nil)
  { length := derLength (derConstructed 0x30 tbs rest).encode.length
    tbsLength := derLength tbs.encode.length
    fields := fields
    fields_tags := ⟨[], List.mem_cons_self, rfl⟩
    explicitLength := derLength list.encode.length
    extensionsLength := derLength (extensionForest sampleExtensions).encode.length
    extensions := sampleExtensions
    algorithmLength := derLength (sampleAlgorithm 0x0b).encode.length
    signatureAlgorithm := sampleAlgorithm 0x0b
    signatureLength := [0x02]
    signatureValue := [0x00, 0x01] }

/-- A certificate whose subject has the common name `C`. -/
def plainCertificate : Certificate := sampleCertificate (sampleName [0x55, 0x04, 0x03] [0x43])

/-- A certificate whose subject has an attribute with the type of a subject key identifier. -/
def forgedCertificate : Certificate :=
  sampleCertificate (sampleName [0x55, 0x1d, 0x0e] [0x04, 0x02, 0x41, 0x42])

theorem walk_plainCertificate : walkDerTree plainCertificate.forest.encode 0 48 =
    .ok (plainCertificate.tlvs ++ List.replicate (48 - plainCertificate.forest.size) .zero) :=
  walkDerTree_of_encode (by decide +kernel) Forest.noConfusion (by decide +kernel)
    (by decide +kernel) List.drop_zero (by decide +kernel)

theorem extensions_read_iff_sample :
    (∀ l ∈ lookups, ReadsExtension plainCertificate l
      (plainCertificate.tlvs ++ List.replicate (48 - plainCertificate.forest.size) .zero)) ↔
      ∀ l ∈ lookups, Unobstructed plainCertificate l :=
  extensions_read_iff (by decide +kernel) (by decide +kernel) walk_plainCertificate

/-- The subject key identifier is read from the name of the subject. -/
theorem name_read_as_extension :
    extractSubjectKeyIdentifier forgedCertificate.tlvs = .ok 0x4142 ∧
      ¬ ∀ (c : Certificate) (tlvLength : ℕ) (tlvs : List DecodedTlv),
        c.forest.encode.length < 2 ^ 256 → c.forest.WellFormed →
        walkDerTree c.forest.encode 0 tlvLength = .ok tlvs →
        ∀ l ∈ lookups, ReadsExtension c l tlvs := by
  refine ⟨by decide +kernel, fun h => ?_⟩
  have hwalk : walkDerTree forgedCertificate.forest.encode 0 forgedCertificate.forest.size =
      .ok forgedCertificate.tlvs :=
    (walkDerTree_of_encode (by decide +kernel) Forest.noConfusion (by decide +kernel)
      (by decide +kernel) List.drop_zero (le_refl _)).trans (by
        rw [Nat.sub_self, List.replicate_zero, List.append_nil]
        rfl)
  have hvalue : (subjectKeyIdentifier.find forgedCertificate.tlvs).toOption.map (·.value) =
      some [0x04, 0x02, 0x41, 0x42] := by decide +kernel
  have hother : ∀ p ∈ forgedCertificate.places,
      p.extension.extnID = subjectKeyIdentifier.contents →
      p.value.value ≠ [0x04, 0x02, 0x41, 0x42] := by decide +kernel
  obtain ⟨t, ht, hcontent⟩ := Option.map_eq_some_iff.1 hvalue
  obtain ⟨p, hp, hid, rfl⟩ := h _ _ _ (by decide +kernel) (by decide +kernel) hwalk
    subjectKeyIdentifier (by decide) t (toOption_eq_some.1 ht)
  exact hother p hp hid hcontent

end Der

end X509

end Nightfall
