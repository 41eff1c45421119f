import PqPsi.Kemeleon.SetMode
import PqPsi.Kemeleon.Uniform
import PqPsi.Kemeleon.WordSampler
import PqPsi.MlkemNative.Indcpa
import PqPsi.Okvs.AutoShape
import PqPsi.Okvs.Dependence
import PqPsi.Okvs.Obliviousness
import PqPsi.Okvs.Resolution
import PqPsi.Permutation.ConsConstants
import PqPsi.Permutation.Fips202Sponge
import PqPsi.Permutation.Hctr2Buffers
import PqPsi.Permutation.Hctr2Polyval
import PqPsi.Permutation.XoodooInverse
import PqPsi.Protocol.Channels
import PqPsi.Protocol.Check
import PqPsi.Protocol.Failures
import PqPsi.Protocol.KeyConsistency
