import ByteFormula.Curve.Edwards
import ByteFormula.Digest.Sha2

/-! Signatures of the scheme Ed25519, verified strictly. -/
namespace ByteFormula.Signature

def keyLength : Nat := 32

/-- Whether a signature is valid: both points are proper, the scalar is below the group order, and
the equation holds exactly, without a cofactor, for the bytes of the first point. -/
def verify (message signature key : Bytes) : Bool :=
  let commitment := signature.take 32
  let scalar := Bytes.toNatLittle (signature.drop 32)
  if signature.length = 64 ∧ scalar < Edwards.order then
    match Edwards.Point.decode? key, Edwards.Point.decode? commitment with
    | some a, some r =>
      if r.hasSmallOrder || a.hasSmallOrder then false
      else
        let challenge := Bytes.toNatLittle (Sha2.sha512 (commitment ++ key ++ message)) % Edwards.order
        let expected := (Edwards.Point.base.mul scalar 253).add (a.neg.mul challenge 253)
        expected.encode == commitment
    | _, _ => false
  else false

end ByteFormula.Signature
