import ShortWeierstrass.Curves.Nist
import ShortWeierstrass.Curves.Small
import ShortWeierstrass.Curves.Standard
import ShortWeierstrass.FixedSize
import ShortWeierstrass.Proofs.DerivedConstants
import ShortWeierstrass.Proofs.Montgomery
import ShortWeierstrass.Proofs.ReductionRows
import ShortWeierstrass.Proofs.ResidueRing
import ShortWeierstrass.Proofs.ResidueTerm
import ShortWeierstrass.Proofs.GroupLaw
import ShortWeierstrass.Proofs.Power
import ShortWeierstrass.Proofs.SquareRoot
import ShortWeierstrass.Proofs.ScalarMultiplication
import ShortWeierstrass.Proofs.PointEncoding
import ShortWeierstrass.Proofs.Compression
import ShortWeierstrass.Proofs.PointCodec
import ShortWeierstrass.Proofs.KeyFormat
import ShortWeierstrass.Proofs.AdmittedDomain
import ShortWeierstrass.Proofs.ScalarBytes
import ShortWeierstrass.Proofs.DigestBits
import ShortWeierstrass.Proofs.Verification
import ShortWeierstrass.Proofs.Signing
import ShortWeierstrass.Proofs.KeyAgreement
import ShortWeierstrass.Proofs.Malleability
import ShortWeierstrass.Proofs.ScalarAction
import ShortWeierstrass.Proofs.CheckedLoops
import ShortWeierstrass.Proofs.BitWindows
import ShortWeierstrass.Proofs.WindowTables
import ShortWeierstrass.Proofs.OutputBuffers
import ShortWeierstrass.Proofs.Totality
import ShortWeierstrass.Proofs.UnitGroup
import ShortWeierstrass.Proofs.RatioRoots
import ShortWeierstrass.Proofs.RejectionSampling
import ShortWeierstrass.Proofs.SecretKeys
import ShortWeierstrass.Proofs.GroupOrder
import ShortWeierstrass.Proofs.KeySigning
import ShortWeierstrass.Proofs.PointSources
import ShortWeierstrass.Proofs.PointConfusion
import ShortWeierstrass.Proofs.CompressedBuffers
import ShortWeierstrass.Proofs.ByteCodec
import ShortWeierstrass.Proofs.ResidueCodec
import ShortWeierstrass.Proofs.HexText
import ShortWeierstrass.Proofs.PointEquality
import ShortWeierstrass.Proofs.Primality
import ShortWeierstrass.Proofs.PointCount
import ShortWeierstrass.Proofs.NistDomains
import ShortWeierstrass.Proofs.KeyGeneration
import ShortWeierstrass.Proofs.SamplingSafety
