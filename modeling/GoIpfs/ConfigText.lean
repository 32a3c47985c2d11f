import GoIpfs.ConfigFilters

/-!
# The text of a config

A config is printed twice: `Clone` encodes and decodes it, and `profile apply`
prints it after scrubbing the private key.  An empty private key is left out of
the text, which therefore shows whether there is one.  Neither of the two uses
sees the difference: `fullText` prints the key in any case, and `Clone` and the
scrubber give the same with it.

Below `Pinning`, the text is already in the order of a map, and determines the
keys of the remote services.
-/

namespace ConfigCommands

open GoJson Config FsRepo Effects

/-- The identity section with the private key in any case. -/
def fullIdentityTy : Ty := .struct [peerIDField, field "PrivKey" .string]

def fullTy : Ty := .struct (field "Identity" fullIdentityTy :: configFields.tail)

/-- The text of a config with its private key, empty or not. -/
def fullText (parsers : Parsers) (conf : Val) : Json :=
  encode (codecs parsers) fullTy conf

section Identity

variable (parsers : Parsers) {folding : Folding}

theorem decode_empty_string {v : Val} (h : isEmpty (codecs parsers) .string v = true) :
    decode (codecs parsers) (encode (codecs parsers) .string v) .string (.str "") =
      .ok (.str "") := by
  cases v with
  | str s =>
    have hs : s = "" := by simpa [isEmpty] using h
    rw [hs]
    rfl
  | _ => rfl

theorem decodeStruct_empty_key (peer : Json) {key : Json}
    (hkey : decode (codecs parsers) key .string (.str "") = .ok (.str "")) :
    decodeStruct (codecs parsers) ([("PeerID", peer)] ++ [("PrivKey", key)])
        [peerIDField, privKeyField] [("PeerID", .str ""), ("PrivKey", .str "")] =
      decodeStruct (codecs parsers) [("PeerID", peer)]
        [peerIDField, privKeyField] [("PeerID", .str ""), ("PrivKey", .str "")] := by
  have hpeer : findField [peerIDField, privKeyField] "PeerID" = some peerIDField :=
    findField_eq unambiguous_identity (by simp) (by decide)
  have hpriv : findField [peerIDField, privKeyField] "PrivKey" = some privKeyField :=
    findField_eq unambiguous_identity (by simp) (by decide)
  have hset : ∀ p, setField peerIDField.name p [("PeerID", .str ""), ("PrivKey", .str "")] =
      [("PeerID", p), ("PrivKey", .str "")] := by
    intro p
    simp [peerIDField, field, setField]
  have hidle : ∀ p, decodeStruct (codecs parsers) [("PrivKey", key)]
      [peerIDField, privKeyField] [("PeerID", p), ("PrivKey", .str "")] =
        .ok [("PeerID", p), ("PrivKey", .str "")] := by
    intro p
    have hprev : getField (codecs parsers) [("PeerID", p), ("PrivKey", .str "")]
        privKeyField = .str "" := by
      simp [getField, privKeyField, omitted]
    show _ <$> decode (codecs parsers) key .string (.str "") = _
    rw [hkey]
    show Except.ok (setField "PrivKey" (.str "") [("PeerID", p), ("PrivKey", .str "")]) = _
    simp [setField]
  rw [decodeStruct_append, decodeStruct_singleton hpeer]
  cases decode (codecs parsers) peer peerIDField.ty (getField (codecs parsers)
      [("PeerID", .str ""), ("PrivKey", .str "")] peerIDField) with
  | error e => rfl
  | ok p =>
    show decodeStruct _ _ _ (setField peerIDField.name p _) = .ok (setField _ p _)
    rw [hset, hidle]

theorem encode_identity (ws : List (String × Val)) :
    ∃ peer key, encode (codecs parsers) fullIdentityTy (.struct ws) =
        .obj ([("PeerID", peer)] ++ [("PrivKey", key)]) ∧
      (encode (codecs parsers) identityTy (.struct ws) =
          .obj ([("PeerID", peer)] ++ [("PrivKey", key)]) ∨
        encode (codecs parsers) identityTy (.struct ws) = .obj [("PeerID", peer)] ∧
          decode (codecs parsers) key .string (.str "") = .ok (.str "")) := by
  refine ⟨encode (codecs parsers) .string ((ws.lookup "PeerID").getD (.str "")),
    encode (codecs parsers) .string ((ws.lookup "PrivKey").getD (.str "")), ?_, ?_⟩
  · simp [fullIdentityTy, peerIDField, field, encode, encodeFields, zero]
  cases hempty : isEmpty (codecs parsers) .string ((ws.lookup "PrivKey").getD (.str "")) with
  | false =>
    left
    simp [identityTy, peerIDField, privKeyField, field, omitted, encode, encodeFields, zero, hempty]
  | true =>
    right
    refine ⟨?_, decode_empty_string parsers hempty⟩
    simp [identityTy, peerIDField, privKeyField, field, omitted, encode, encodeFields, zero, hempty]

theorem decode_identity (v : Val) :
    decode (codecs parsers) (encode (codecs parsers) identityTy v) identityTy
        (zero (codecs parsers) identityTy) =
      decode (codecs parsers) (encode (codecs parsers) fullIdentityTy v) identityTy
        (zero (codecs parsers) identityTy) := by
  cases v with
  | struct ws =>
    obtain ⟨peer, key, hfull, hsame | ⟨hshort, hkey⟩⟩ := encode_identity parsers ws
    · rw [hfull, hsame]
    · rw [hfull, hshort, decode, decode]
      have hdec := decodeStruct_empty_key parsers peer hkey
      exact congrArg (fun r => (fun vs => Val.struct vs) <$> r) hdec.symm
  | _ => rfl

/-- The texts with and without an empty key differ in the identity section. -/
theorem encode_config (vs : List (String × Val)) :
    ∃ v, encode (codecs parsers) configTy (.struct vs) =
        .obj (("Identity", encode (codecs parsers) identityTy v) ::
          encodeFields (codecs parsers) configFields.tail vs) ∧
      fullText parsers (.struct vs) =
        .obj (("Identity", encode (codecs parsers) fullIdentityTy v) ::
          encodeFields (codecs parsers) configFields.tail vs) := by
  refine ⟨(vs.lookup "Identity").getD (zero (codecs parsers) identityTy), ?_, ?_⟩
  · show Json.obj (encodeFields (codecs parsers) (identityField :: configFields.tail) vs) = _
    rfl
  · show Json.obj (encodeFields (codecs parsers)
      (field "Identity" fullIdentityTy :: configFields.tail) vs) = _
    rfl

/-- **The copy of a config** does not depend on whether an empty key is printed. -/
theorem clone_eq (conf : Val) :
    clone parsers conf = decodeConfig parsers (fullText parsers conf) := by
  cases conf with
  | struct vs =>
    have hfind : findField configFields "Identity" = some identityField :=
      findField_eq unambiguous_configFields List.mem_cons_self (by decide)
    have hprev : getField (codecs parsers) (zeroFields (codecs parsers) configFields)
        identityField = zero (codecs parsers) identityTy := rfl
    obtain ⟨v, hshort, hfull⟩ := encode_config parsers vs
    have hdec : decode (codecs parsers)
          (.obj (("Identity", encode (codecs parsers) identityTy v) ::
            encodeFields (codecs parsers) configFields.tail vs)) configTy
          (zero (codecs parsers) configTy) =
        decode (codecs parsers)
          (.obj (("Identity", encode (codecs parsers) fullIdentityTy v) ::
            encodeFields (codecs parsers) configFields.tail vs)) configTy
          (zero (codecs parsers) configTy) := by
      rw [decode, decode]
      simp only [configTy, GoTy.base, GoTy.target, zero, Val.fields]
      show _ <$> (decode _ _ identityTy (getField _ _ identityField) >>= _) =
        _ <$> (decode _ _ identityTy (getField _ _ identityField) >>= _)
      rw [hprev, decode_identity]
    unfold clone decodeConfig
    rw [hshort, hfull, hdec]
  | _ => rfl

theorem scrub_identity (okIfMissing : Bool) (v : Val) :
    scrubEither (scrubMapInternal folding okIfMissing ["PrivKey"]) okIfMissing
        (canon (encode (codecs parsers) identityTy v)) =
      scrubEither (scrubMapInternal folding okIfMissing ["PrivKey"]) okIfMissing
        (canon (encode (codecs parsers) fullIdentityTy v)) := by
  cases v with
  | struct ws =>
    obtain ⟨peer, key, hfull, hsame | ⟨hshort, hkey⟩⟩ := encode_identity parsers ws
    · rw [hfull, hsame]
    rw [hfull, hshort]
    have hpeer : selects folding "PrivKey" "PeerID" = false := by
      rw [selects_of_ascii folding (by simp)]
      decide
    have hpriv : selects folding "PrivKey" "PrivKey" = true := selects_self folding _
    have hlt : ("PeerID" : String) < "PrivKey" := by decide
    have hmap : canon (.obj ([("PeerID", peer)] ++ [("PrivKey", key)])) =
        .obj [("PeerID", canon peer), ("PrivKey", canon key)] := by
      simp [canon, canonMembers, setKey, hlt]
    have hmap' : canon (.obj [("PeerID", peer)]) = .obj [("PeerID", canon peer)] := by
      simp [canon, canonMembers, setKey]
    have hgone : scrubEither (fun m => scrubMapInternal folding okIfMissing [] m) okIfMissing
        (canon key) = .ok none := by
      cases key with
      | null | str s => rfl
      | _ => cases hkey
    rw [hmap, hmap', scrubEither, scrubEither, scrubMapInternal, scrubMapInternal]
    simp only [scrubMembers, hpeer, hpriv, hgone]
    rfl
  | _ => rfl

theorem identity_not_mem_tail (vs : List (String × Val)) :
    "Identity" ∉ (encodeFields (codecs parsers) configFields.tail vs).map Prod.fst := by
  intro hmem
  have := name_of_mem_encodeFields hmem
  revert this
  decide

theorem canonMembers_cons_identity (j : Json) (vs : List (String × Val)) :
    canonMembers (("Identity", j) :: encodeFields (codecs parsers) configFields.tail vs) =
      setKey "Identity" (canon j)
        (canonMembers (encodeFields (codecs parsers) configFields.tail vs)) := by
  rw [canonMembers, if_neg]
  rw [lookup_canonMembers_of_not_mem (identity_not_mem_tail parsers vs)]
  exact Bool.false_ne_true

theorem scrubMembers_setKey {selected : String → Bool}
    {scrub : Json → Except String (Option Json)} {k : String} {j j' : Json}
    (hk : selected k = true) (h : scrub j = scrub j') (m : Members) :
    scrubMembers selected scrub (setKey k j m) =
      scrubMembers selected scrub (setKey k j' m) := by
  induction m with
  | nil => simp only [setKey, scrubMembers, hk, h, if_true]
  | cons e rest ih =>
    unfold setKey
    split
    · simp only [scrubMembers, hk, h, if_true]
    · split
      · simp only [scrubMembers, hk, h, if_true]
      · simp only [scrubMembers, ih]

/-- **The scrubbed config** does not depend on whether an empty key is printed. -/
theorem scrubPrivKey_eq (conf : Val) :
    scrubPrivKey folding parsers conf =
      scrubValue folding (canonMembers (fullText parsers conf).members) privKeyPath := by
  cases conf with
  | struct vs =>
    obtain ⟨v, hshort, hfull⟩ := encode_config parsers vs
    unfold scrubPrivKey toMap scrubValue privKeyPath
    rw [hshort, hfull, Json.members, Json.members, canonMembers_cons_identity,
      canonMembers_cons_identity, scrubMapInternal, scrubMapInternal]
    exact scrubMembers_setKey (selects_self folding _) (scrub_identity parsers false v) _
  | _ => rfl

end Identity

variable {conf conf' : Val}

section Pinning

variable (parsers : Parsers)

def remoteServicesField : GoJson.Field Ty := field "RemoteServices" (.map remotePinningServiceTy)

def keyField : GoJson.Field Ty := field "Key" .string

def apiField : GoJson.Field Ty := field "API" (.struct [field "Endpoint" .string, keyField])

/-- `Pinning.RemoteServices`. -/
def remoteServices (conf : Val) : Val :=
  getField (codecs parsers) (getField (codecs parsers) conf.fields pinningField).fields
    remoteServicesField

def apiKey (service : Val) : Json :=
  encode (codecs parsers) .string (getField (codecs parsers)
    (getField (codecs parsers) service.fields apiField).fields keyField)

def apiKeys (conf : Val) : List (String × Json) :=
  (remoteServices parsers conf).entries.map fun e => (e.1, apiKey parsers e.2)

theorem encode_service_eq_iff {v w : Val} (h : AlikeVal [["API", "Key"]] v w) :
    encode (codecs parsers) remotePinningServiceTy v =
        encode (codecs parsers) remotePinningServiceTy w ↔
      apiKey parsers v = apiKey parsers w := by
  have hapi : AlikeVal [["Key"]] (getField (codecs parsers) v.fields apiField)
      (getField (codecs parsers) w.fields apiField) :=
    h.fields.getD "API" (zero (codecs parsers) apiField.ty)
  calc encode (codecs parsers) remotePinningServiceTy v =
        encode (codecs parsers) remotePinningServiceTy w
      ↔ encode (codecs parsers) apiField.ty (getField (codecs parsers) v.fields apiField) =
        encode (codecs parsers) apiField.ty (getField (codecs parsers) w.fields apiField) :=
        encode_struct_eq_iff (by decide) List.mem_cons_self rfl (by decide) h
    _ ↔ apiKey parsers v = apiKey parsers w :=
        encode_struct_eq_iff (f := keyField) (by decide) (by simp) rfl
          (by decide) hapi

section

variable (h : AlikeVal secretSelectors conf conf')
include h

theorem alike_pinning :
    AlikeVal [["RemoteServices", "*", "API", "Key"]]
      (getField (codecs parsers) conf.fields pinningField)
      (getField (codecs parsers) conf'.fields pinningField) :=
  h.fields.getD "Pinning" (zero (codecs parsers) pinningTy)

theorem alike_remoteServices :
    AlikeVal [["*", "API", "Key"]] (remoteServices parsers conf)
      (remoteServices parsers conf') :=
  (alike_pinning parsers h).fields.getD "RemoteServices"
    (zero (codecs parsers) remoteServicesField.ty)

/-- **The pinning section shows the keys.** -/
theorem encode_pinning_eq_iff :
    encode (codecs parsers) pinningTy (getField (codecs parsers) conf.fields pinningField) =
        encode (codecs parsers) pinningTy (getField (codecs parsers) conf'.fields pinningField) ↔
      apiKeys parsers conf = apiKeys parsers conf' := by
  refine (encode_struct_eq_iff (f := remoteServicesField) (by decide) List.mem_cons_self
    rfl (by decide) (alike_pinning parsers h)).trans ?_
  refine encode_map_eq_iff (by decide) ?_ (alike_remoteServices parsers h)
  intro v w hvw
  exact encode_service_eq_iff parsers hvw

end

theorem canonical_pinning (h : Increasing (remoteServices parsers conf).entries) :
    Canonical (encode (codecs parsers) pinningTy
      (getField (codecs parsers) conf.fields pinningField)) := by
  have hservices : Canonical (encode (codecs parsers) (.map remotePinningServiceTy)
      (remoteServices parsers conf)) := canonical_encode_map (by decide) h
  unfold remoteServices at hservices
  cases hval : getField (codecs parsers) conf.fields pinningField with
  | struct vs =>
    rw [hval] at hservices
    refine canonical_encodeFields (List.pairwise_singleton _ _) fun f hf => ?_
    obtain rfl := List.mem_singleton.mp hf
    exact hservices
  | _ => exact True.intro

theorem lookup_pinning_toMap (vs : List (String × Val)) :
    (toMap parsers (.struct vs)).lookup "Pinning" =
      some (canon (encode (codecs parsers) pinningTy
        (getField (codecs parsers) vs pinningField))) :=
  lookup_canon_encodeFields (f := pinningField) nodup_configFields
    (by simp [configFields]) rfl

/-- **The printed map shows the keys.** -/
theorem apiKeys_eq_of_toMap (h : AlikeVal secretSelectors conf conf')
    (hord : Increasing (remoteServices parsers conf).entries)
    (heq : (toMap parsers conf).lookup "Pinning" = (toMap parsers conf').lookup "Pinning") :
    apiKeys parsers conf = apiKeys parsers conf' := by
  refine (encode_pinning_eq_iff parsers h).mp ?_
  have hord' := (alike_remoteServices parsers h).entries.increasing hord
  have hcanon := canon_eq_self (canonical_pinning parsers hord)
  have hcanon' := canon_eq_self (canonical_pinning parsers hord')
  rcases h.elim with rfl | ⟨a, b, rfl, rfl, _⟩ | ⟨es, es', rfl, rfl, _⟩ | ⟨vs, ws, rfl, rfl, _⟩
  · rfl
  · rfl
  · rfl
  · rw [lookup_pinning_toMap, lookup_pinning_toMap, Option.some.injEq] at heq
    exact (hcanon.symm.trans heq).trans hcanon'

theorem unambiguous_pinning : Unambiguous [remoteServicesField] := by
  unfold Unambiguous
  decide

theorem decodeAll_remoteServices {text : Json} (h : decodeConfig parsers text = .ok conf) :
    decodeAll (codecs parsers) (.map remotePinningServiceTy)
      (spellings "RemoteServices" ((spellings "Pinning" text.members).flatMap Json.members))
      .nil = .ok (remoteServices parsers conf) := by
  obtain ⟨vs, rfl, hvs⟩ := decodeConfig_fields h
  have hpinning := decodeStruct_field unambiguous_configFields
    (show pinningField ∈ configFields by simp [configFields]) hvs
  obtain ⟨ps, hps, hdec⟩ := decodeAll_struct hpinning
  have hservices := decodeStruct_field unambiguous_pinning
    (show remoteServicesField ∈ [remoteServicesField] from List.mem_cons_self) hdec
  have hval : remoteServices parsers (.struct vs) =
      getField (codecs parsers) ps remoteServicesField := by
    show getField _ (getField (codecs parsers) vs pinningField).fields _ = _
    rw [hps]
    rfl
  rw [hval]
  exact hservices

theorem increasing_remoteServices {text : Json} (h : decodeConfig parsers text = .ok conf) :
    Increasing (remoteServices parsers conf).entries :=
  increasing_decodeAll_map (v := .nil) List.Pairwise.nil (decodeAll_remoteServices parsers h)

theorem alike_fullText {sels : Selectors} (hcon : concealable sels fullTy = true)
    (hpr : printed sels fullTy = true) (h : AlikeVal sels conf conf') :
    Alike sels (fullText parsers conf) (fullText parsers conf') :=
  alike_encode (codecs parsers) fullTy sels hcon hpr conf conf' h

theorem advance_other {k : String} (hident : k ≠ "Identity") (hpin : k ≠ "Pinning") :
    advance k secretSelectors = [] := by
  simp [advance, secretSelectors, privKeyPath, pinningConcealSelector, Ne.symm hident, Ne.symm hpin]

theorem alike_fullText_of_apiKeys (h : AlikeVal secretSelectors conf conf')
    (hkeys : apiKeys parsers conf = apiKeys parsers conf') :
    Alike [privKeyPath] (fullText parsers conf) (fullText parsers conf') := by
  have htext := alike_fullText parsers (by decide) (by decide) h
  have hpinning := (encode_pinning_eq_iff parsers h).mpr hkeys
  have hnodup : ((field "Identity" fullIdentityTy :: configFields.tail).map
      Field.name).Nodup := by decide
  rcases h.elim with rfl | ⟨a, b, rfl, rfl, _⟩ | ⟨es, es', rfl, rfl, _⟩ | ⟨vs, ws, rfl, rfl, _⟩
  · exact Alike.refl _ _
  · rfl
  · rfl
  · refine alike_obj.mpr ((alike_obj.mp htext).restrict ?_)
    intro k v w hv hw hvw
    by_cases hident : k = "Identity"
    · subst hident
      exact hvw
    have heq : v = w := by
      by_cases hpin : k = "Pinning"
      · have hsection : ∀ {us : List (String × Val)} {u : Json},
            (k, u) ∈ encodeFields (codecs parsers)
              (field "Identity" fullIdentityTy :: configFields.tail) us →
            u = encode (codecs parsers) pinningTy
              (getField (codecs parsers) us pinningField) := by
          intro us u hu
          obtain ⟨f, hf, hfu⟩ := mem_encodeFields hu
          cases hfu
          obtain rfl : f = pinningField := List.inj_on_of_nodup_map hnodup hf
            (by simp [configFields]) hpin
          rfl
        rw [hsection hv, hsection hw]
        exact hpinning
      · rw [advance_other hident hpin] at hvw
        exact alike_eq_all.1 v w hvw
    rw [heq]
    exact Alike.refl _ w

end Pinning

end ConfigCommands
